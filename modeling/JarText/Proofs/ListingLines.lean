import JarText.Proofs.DescriptorGrammar
import JarText.Proofs.SheetWorkflow

/-!
# The lines of a listing

A listing has a line for the jar and then a line for each string. A value stands between quotes and
keeps to its line. The names of classes and methods stand as they are, so a line end in one of them
breaks its line: `HasLines` says what the lines of a text are, and counting line ends finds the
strings that take more than one.
-/

set_option autoImplicit false

namespace JarText

namespace Text

/-- A text that consists of lines, with a line end after each. -/
structure HasLines (text : List Char) (lines : List (List Char)) : Prop where
  joined : text = lines.flatMap (· ++ ['\n'])
  whole : ∀ line ∈ lines, '\n' ∉ line

namespace HasLines

variable {text text' : List Char} {lines lines' : List (List Char)}

theorem count_newline (h : HasLines text lines) : text.count '\n' = lines.length := by
  obtain ⟨rfl, hwhole⟩ := h
  induction lines with
  | nil => rfl
  | cons line lines ih =>
    obtain ⟨hline, hrest⟩ := List.forall_mem_cons.mp hwhole
    rw [List.flatMap_cons, List.count_append, List.count_append, ih hrest,
      List.count_eq_zero.mpr hline, List.length_cons]
    simp [Nat.add_comm]

theorem unique (h : HasLines text lines) (h' : HasLines text lines') : lines = lines' := by
  obtain ⟨rfl, hwhole⟩ := h
  obtain ⟨hjoined, hwhole'⟩ := h'
  induction lines generalizing lines' with
  | nil =>
    cases lines' with
    | nil => rfl
    | cons line' lines' => simp at hjoined
  | cons line lines ih =>
    cases lines' with
    | nil => simp at hjoined
    | cons line' lines' =>
      obtain ⟨hline, hrest⟩ := List.forall_mem_cons.mp hwhole
      obtain ⟨hline', hrest'⟩ := List.forall_mem_cons.mp hwhole'
      rw [List.flatMap_cons, List.flatMap_cons, List.append_assoc, List.append_assoc] at hjoined
      -- The first line goes as far as the first line end, on both sides.
      have hsplit := congrArg (List.splitOn '\n') hjoined
      rw [List.singleton_append, List.singleton_append,
        List.splitOn_append_cons_self_of_not_mem hline,
        List.splitOn_append_cons_self_of_not_mem hline'] at hsplit
      obtain rfl := (List.cons.inj hsplit).1
      rw [ih hrest (List.append_cancel_left (List.append_cancel_left hjoined)) hrest']

theorem append (h : HasLines text lines) (h' : HasLines text' lines') :
    HasLines (text ++ text') (lines ++ lines') := by
  obtain ⟨rfl, hwhole⟩ := h
  obtain ⟨rfl, hwhole'⟩ := h'
  refine ⟨List.flatMap_append.symm, ?_⟩
  intro line hline
  rcases List.mem_append.mp hline with hline | hline
  · exact hwhole line hline
  · exact hwhole' line hline

end HasLines

theorem hasLines_splitOn (body : List Char) :
    HasLines (body ++ ['\n']) (body.splitOn '\n') := by
  induction body with
  | nil =>
    rw [List.splitOn_nil]
    exact ⟨rfl, by simp⟩
  | cons c body ih =>
    rw [List.splitOn_cons_eq_if_modifyHead]
    split
    · rename_i hc
      obtain rfl : c = '\n' := beq_iff_eq.mp hc
      have hfirst : HasLines ['\n'] [[]] := ⟨rfl, by simp⟩
      exact hfirst.append ih
    · rename_i hc
      obtain ⟨line, lines, hlines⟩ := List.exists_cons_of_ne_nil (List.splitOn_ne_nil '\n' body)
      obtain ⟨hjoined, hwhole⟩ := ih
      rw [hlines] at hjoined hwhole ⊢
      rw [List.modifyHead_cons]
      obtain ⟨hline, hrest⟩ := List.forall_mem_cons.mp hwhole
      constructor
      · rw [List.cons_append, hjoined]
        rfl
      · rw [List.forall_mem_cons]
        refine ⟨?_, hrest⟩
        intro hmem
        rcases List.mem_cons.mp hmem with heq | hmem
        · exact hc (beq_iff_eq.mpr heq.symm)
        · exact hline hmem

/-- Texts with line ends in them, each ended by one more, fall into the lines of each in turn. -/
theorem hasLines_flatMap (bodies : List (List Char)) :
    HasLines (bodies.flatMap (· ++ ['\n'])) (bodies.flatMap (List.splitOn '\n')) := by
  induction bodies with
  | nil => exact ⟨rfl, by simp⟩
  | cons body bodies ih => exact (hasLines_splitOn body).append ih

/-! ## Line ends -/

/-- How many line ends there are in a text. -/
def breaks (text : String) : Nat := text.toList.count '\n'

@[simp] theorem breaks_append (text text' : String) :
    breaks (text ++ text') = breaks text + breaks text' := by
  rw [breaks, String.toList_append, List.count_append]
  rfl

theorem breaks_join (texts : List String) :
    breaks (String.join texts) = (texts.map breaks).sum := by
  rw [breaks, String.toList_join, List.count_flatMap]
  rfl

theorem breaks_eq_zero_iff {text : String} : breaks text = 0 ↔ '\n' ∉ text.toList :=
  List.count_eq_zero

/-- A line without the line end at its end. -/
def body (line : String) : List Char := line.toList.dropLast

theorem body_append_newline (front : String) : body (front ++ "\n") = front.toList := by
  rw [body, String.toList_append]
  exact List.dropLast_concat

theorem toList_of_eq_append {line front : String} (h : line = front ++ "\n") :
    line.toList = body line ++ ['\n'] := by
  rw [h, body_append_newline, String.toList_append]
  rfl

theorem newline_notMem_toDigits {base : Nat} (hbase : 1 < base) (hdigits : base ≤ 16) (n : Nat) :
    '\n' ∉ Nat.toDigits base n := by
  have hdigit : ∀ digit < 16, '\n' ≠ Nat.digitChar digit := by decide
  induction n using Nat.strongRecOn with
  | ind n ih =>
    rw [Nat.toDigits_eq_if hbase]
    split
    · rename_i hn
      exact mt List.mem_singleton.mp (hdigit n (hn.trans_le hdigits))
    · rename_i hn
      have hless : n / base < n := Nat.div_lt_self (by omega) hbase
      have hmod : n % base < base := Nat.mod_lt n (by omega)
      rw [List.mem_append, not_or]
      exact ⟨ih _ hless, mt List.mem_singleton.mp (hdigit _ (hmod.trans_le hdigits))⟩

@[simp] theorem breaks_toString_nat (n : Nat) : breaks (toString n) = 0 := by
  rw [breaks_eq_zero_iff, Nat.toString_eq_ofList_toDigits, String.toList_ofList]
  exact newline_notMem_toDigits (by decide) (by decide) n

theorem newline_notMem_escapeChar {mark c : Char} : '\n' ∉ escapeChar mark c := by
  unfold escapeChar
  split_ifs with hzero htab hnewline hreturn hplain hunprintable
  · decide
  · decide
  · decide
  · decide
  · simp [Ne.symm hnewline]
  · simp [newline_notMem_toDigits (show 1 < 16 by decide)]
  · simp [Ne.symm hnewline]

/-- A quoted text stays on one line. -/
@[simp] theorem breaks_quote (text : String) : breaks (quote text) = 0 := by
  rw [breaks_eq_zero_iff, quote, String.toList_ofList]
  simp [newline_notMem_escapeChar]

end Text

/-! ## Names -/

namespace Descriptor

variable {shown : List Char}

theorem ClassName.Shows.count_newline {name : ClassName} (h : name.Shows shown) :
    shown.count '\n' = name.chars.count '\n' := by
  have hdotted : name.dotted.count '\n' = name.chars.count '\n' := by
    rw [ClassName.dotted, List.count_eq_countP, List.countP_map, List.count_eq_countP]
    apply List.countP_congr
    intro c _
    by_cases hslash : c = '/'
    · simp [hslash]
    · simp [hslash]
  cases h with
  | simple h _ =>
    rw [← hdotted, h, List.count_append]
    exact (Nat.zero_add _).symm
  | dotted _ => exact hdotted

theorem BaseType.Shows.count_newline {type : BaseType} (h : type.Shows shown) :
    shown.count '\n' = type.spelled.count '\n' := by
  cases h with
  | primitive type => cases type <;> rfl
  | named h =>
    rw [h.count_newline, BaseType.spelled, List.count_append, List.count_cons]
    rfl

theorem FieldType.Shows.count_newline {type : FieldType} (h : type.Shows shown) :
    shown.count '\n' = type.spelled.count '\n' := by
  obtain ⟨hbase⟩ := h
  have hbrackets : (brackets type.depth).count '\n' = 0 := by
    rw [List.count_eq_zero]
    simp [brackets]
  rw [List.count_append, hbase.count_newline, hbrackets, FieldType.spelled, List.count_append,
    List.count_replicate]
  simp

theorem count_newline_commaSeparated (items : List (List Char)) :
    (commaSeparated items).count '\n' = (items.map (List.count '\n')).sum :=
  match items with
  | [] => rfl
  | [item] => by simp [commaSeparated]
  | item :: next :: rest => by
    have hrest := count_newline_commaSeparated (next :: rest)
    rw [commaSeparated] at hrest ⊢
    rw [List.intercalate_cons_cons, List.count_append, List.count_append, hrest, List.map_cons,
      List.sum_cons]
    rfl

namespace MethodType

theorem ShowsResult.count_newline {result : Option FieldType} (h : ShowsResult result shown) :
    shown.count '\n' = (spelledResult result).count '\n' := by
  cases h with
  | nothing => rfl
  | type h => exact h.count_newline

theorem count_newline_parameters {types : List FieldType} {parameters : List (List Char)}
    (h : List.Forall₂ FieldType.Shows types parameters) :
    (parameters.map (List.count '\n')).sum = (types.flatMap FieldType.spelled).count '\n' := by
  induction h with
  | nil => rfl
  | cons hfirst _ ih =>
    rw [List.map_cons, List.sum_cons, ih, hfirst.count_newline, List.flatMap_cons,
      List.count_append]

/-- A declaration has the line ends of its name and its descriptor. -/
theorem Shows.count_newline {type : MethodType} {name : List Char} (h : type.Shows name shown) :
    shown.count '\n' = name.count '\n' + type.spelled.count '\n' := by
  obtain ⟨hresult, hparameters⟩ := h
  have hitems := (count_newline_commaSeparated _).trans (count_newline_parameters hparameters)
  rw [commaSeparated] at hitems
  have hmarks : [' '].count '\n' = 0 ∧ ['('].count '\n' = 0 ∧ [')'].count '\n' = 0 := by decide
  have hspelled : type.spelled.count '\n' =
      (type.parameters.flatMap FieldType.spelled).count '\n' +
        (spelledResult type.result).count '\n' := by
    rw [spelled, List.count_append, List.count_cons, List.count_cons]
    rfl
  rw [hspelled]
  simp only [List.count_append, hitems, hresult.count_newline, hmarks]
  omega

end MethodType

end Descriptor

namespace Listing

open Text

theorem breaks_methodText (signature : String) :
    breaks (methodText signature) = breaks signature := by
  unfold methodText
  dsimp only
  split
  · rfl
  · split
    · rename_i text htext
      obtain ⟨type, hspelled, hshown⟩ := Descriptor.exists_shows_of_method htext
      rw [String.toList_ofList] at hspelled hshown
      rw [breaks, hshown.count_newline, ← hspelled, ← List.count_append,
        List.takeWhile_append_dropWhile]
      rfl
    · rfl

theorem exists_headerLine_eq (listing : Listing) : ∃ front,
    breaks front = breaks listing.path ∧ listing.headerLine = front ++ "\n" := by
  have hwords : breaks ": " = 0 ∧ breaks " strings in " = 0 ∧ breaks " classes" = 0 ∧
      breaks " (" = 0 ∧ breaks " skipped)" = 0 := by decide
  refine ⟨listing.path ++ (": " ++ toString listing.shown.length ++ " strings in "
    ++ toString listing.report.classes.length ++ " classes")
    ++ (" (" ++ toString listing.report.skipped.length ++ " skipped)"), ?_, ?_⟩
  · simp only [breaks_append, breaks_toString_nat, hwords, Nat.add_zero]
  · have hlast : " skipped)\n" = " skipped)" ++ "\n" := by decide
    change listing.path ++ (": " ++ toString listing.shown.length ++ " strings in "
      ++ toString listing.report.classes.length ++ " classes")
      ++ (" (" ++ toString listing.report.skipped.length ++ " skipped)\n") = _
    simp only [hlast, String.append_assoc]

/-- The line of a string has the line ends of the names in it, beside the one at its end. -/
theorem exists_stringLine_eq (found : FoundString) : ∃ front,
    breaks front = breaks found.className + breaks found.method ∧
      stringLine found = front ++ "\n" := by
  obtain ⟨line, use, hline, huse, heq⟩ : ∃ line use, breaks line = 0 ∧ breaks use = 0 ∧
      stringLine found = "  #" ++ toString found.id ++ " " ++ found.className ++ line ++ " "
        ++ methodText found.method ++ use ++ " " ++ quote found.value ++ "\n" := by
    refine ⟨_, _, ?_, ?_, rfl⟩
    · have hcolon : breaks ":" = 0 := by decide
      cases found.line with
      | none => rfl
      | some line => exact (breaks_append ":" _).trans (by rw [hcolon, breaks_toString_nat])
    · cases found.use with
      | none => rfl
      | some use => cases use <;> decide
  have hwords : breaks "  #" = 0 ∧ breaks " " = 0 := by decide
  refine ⟨_, ?_, heq⟩
  simp only [breaks_append, breaks_toString_nat, breaks_quote, breaks_methodText, hline, huse,
    hwords, Nat.zero_add, Nat.add_zero]

variable {listing : Listing}

def bodies (listing : Listing) : List (List Char) :=
  body listing.headerLine :: listing.shown.map fun found => body (stringLine found)

theorem toList_text (listing : Listing) :
    listing.text.toList = listing.bodies.flatMap (· ++ ['\n']) := by
  obtain ⟨_, _, hheader⟩ := exists_headerLine_eq listing
  have hstrings : listing.shown.flatMap (fun found => (stringLine found).toList) =
      listing.shown.flatMap fun found => body (stringLine found) ++ ['\n'] := by
    apply List.flatMap_congr
    intro found _
    obtain ⟨_, _, heq⟩ := exists_stringLine_eq found
    exact toList_of_eq_append heq
  rw [text, String.toList_append, String.toList_join, toList_of_eq_append hheader,
    List.flatMap_map, hstrings, bodies, List.flatMap_cons, List.flatMap_map]

theorem forall_bodies_iff : (∀ line ∈ listing.bodies, '\n' ∉ line) ↔
    '\n' ∉ listing.path.toList ∧
      ∀ found ∈ listing.shown, '\n' ∉ found.className.toList ∧ '\n' ∉ found.method.toList := by
  obtain ⟨header, hheader, heq⟩ := exists_headerLine_eq listing
  rw [bodies, List.forall_mem_cons, List.forall_mem_map, heq, body_append_newline,
    ← breaks_eq_zero_iff, hheader, breaks_eq_zero_iff]
  apply and_congr_right
  intro _
  apply forall₂_congr
  intro found _
  obtain ⟨front, hfront, heq⟩ := exists_stringLine_eq found
  rw [heq, body_append_newline, ← breaks_eq_zero_iff, hfront,
    Nat.add_eq_zero_iff, breaks_eq_zero_iff, breaks_eq_zero_iff]

theorem breaks_text (listing : Listing) : breaks listing.text = breaks listing.path + 1 +
    (listing.shown.map fun found => breaks found.className + breaks found.method + 1).sum := by
  have hend : breaks "\n" = 1 := by decide
  obtain ⟨header, hheader, heq⟩ := exists_headerLine_eq listing
  have hstrings : listing.shown.map (breaks ∘ stringLine) =
      listing.shown.map fun found => breaks found.className + breaks found.method + 1 := by
    apply List.map_congr_left
    intro found _
    obtain ⟨front, hfront, heq⟩ := exists_stringLine_eq found
    rw [Function.comp_apply, heq, breaks_append, hfront, hend]
  rw [text, breaks_append, heq, breaks_append, hheader, hend, breaks_join, List.map_map, hstrings]

theorem getLast?_text (listing : Listing) : listing.text.toList.getLast? = some '\n' := by
  have hlines := toList_text listing
  rcases List.eq_nil_or_concat listing.bodies with hnil | ⟨front, last, hbodies⟩
  · cases hnil
  · rw [hlines, hbodies, List.concat_eq_append, List.flatMap_append, List.flatMap_singleton,
      ← List.append_assoc]
    exact List.getLast?_concat

theorem path_of_ofBytes {request : ScanRequest} {path : String} {bytes : Bytes}
    (h : ofBytes request path bytes = .ok listing) : listing.path = path := by
  cases hopen : Jar.ofBytes bytes with
  | error fault =>
    rw [ofBytes, hopen] at h
    cases h
  | ok jar =>
    rw [ofBytes, hopen] at h
    cases h
    rfl

/-- The listing of a jar that was made of entries shows what a scan of the entries finds. -/
theorem ofBytes_build {entries : List (String × Bytes)} (hdistinct : (entries.map (·.1)).Nodup)
    (hfiles : ∀ entry ∈ entries, entry.1.toList.getLast? ≠ some '/')
    (hbuilt : Zip.Keeps Zip.Entry.shown (Jar.built entries)) (request : ScanRequest)
    (path : String) :
    ofBytes request path (Jar.build entries) =
      let report := (ArchiveScan.run (runConfig request) .never
        (MemoryArchive.ofList entries)).report
      .ok { path, fingerprint := JarText.fingerprint (Jar.build entries), report
            shown := Filter.strings (!request.showBlank) request.query report.strings } := by
  obtain ⟨jar, hopen, hmirrors⟩ := Jar.exists_mirrors hdistinct hfiles hbuilt
  have hrun : ArchiveScan.run (runConfig request) .never jar =
      ArchiveScan.run (runConfig request) .never (MemoryArchive.ofList entries) :=
    ArchiveScan.run_eq_of_read_eq hmirrors.names hmirrors.read _ _
  rw [ofBytes, hopen]
  dsimp only [bind, Except.bind]
  rw [hrun]
  rfl

end Listing

namespace Command

open Text
open Zip (Entry)

variable {request : ScanRequest} {path : String} {bytes : Bytes} {listing : Listing}

/-- A listing has a line for the jar and a line for each string, in order, exactly if no class or
method that is shown has a line end in its name or its descriptor. Each of these breaks a line, and
nothing else does. -/
theorem lines_of_scan (hlisting : Listing.ofBytes request path bytes = .ok listing)
    (hpath : '\n' ∉ path.toList) :
    (HasLines listing.text.toList (body listing.headerLine ::
        listing.shown.map fun found => body (Listing.stringLine found)) ↔
      ∀ found ∈ listing.shown, '\n' ∉ found.className.toList ∧ '\n' ∉ found.method.toList) ∧
    (∃ lines, HasLines listing.text.toList lines ∧
      (∀ other, HasLines listing.text.toList other → other = lines) ∧ lines.length = 1 +
        (listing.shown.map fun found => breaks found.className + breaks found.method + 1).sum) ∧
    endLine listing.text = listing.text ∧
    ∀ tree : FileTree, request.path = path → request.format = .text → tree.read path = .ok bytes →
      (∀ path ∈ request.output, ∀ content, ∃ tree', tree.write path content = .ok tree') →
        Gives tree request listing.text := by
  obtain rfl : listing.path = path := Listing.path_of_ofBytes hlisting
  have hlines := hasLines_flatMap listing.bodies
  rw [← listing.toList_text] at hlines
  refine ⟨?_, ⟨_, hlines, fun _ hother => hother.unique hlines, ?_⟩, ?_, ?_⟩
  · constructor
    · intro h
      exact (Listing.forall_bodies_iff.mp h.whole).2
    · intro hnames
      exact ⟨listing.toList_text, Listing.forall_bodies_iff.mpr ⟨hpath, hnames⟩⟩
  · rw [← hlines.count_newline]
    have hbreaks := listing.breaks_text
    rwa [breaks_eq_zero_iff.mpr hpath, Nat.zero_add] at hbreaks
  · rw [endLine, if_pos listing.getLast?_text]
  · intro tree hrequest hformat hread hwrites
    rw [← hrequest] at hread hlisting
    have hgives := gives_jarOutput hread hlisting hwrites
    rwa [hformat] at hgives

theorem lines_of_scan_greetings : ∃ listing, '\n' ∉ "a.jar".toList ∧
    Listing.ofBytes { path := "a.jar" } "a.jar" greetingBytes = .ok listing ∧
    greetingFiles.read "a.jar" = .ok greetingBytes ∧
    Gives greetingFiles { path := "a.jar" } listing.text ∧
    HasLines listing.text.toList
      ["a.jar: 2 strings in 1 classes (0 skipped)".toList, "  #0 A void n() \"Hi\"".toList,
        "  #1 A void n() \"\ufffd\"".toList] := by
  have hkeeps : Zip.Keeps Entry.shown (Jar.built greetingEntries) :=
    small_greetingJar.ordinary.keeps Entry.shown
  have hlisting := Listing.ofBytes_build (by decide) (by decide) hkeeps { path := "a.jar" } "a.jar"
  dsimp only at hlisting
  obtain ⟨hlines, _, _, hgives⟩ := lines_of_scan hlisting (by decide)
  refine ⟨_, by decide, hlisting, rfl, hgives greetingFiles rfl rfl rfl (by simp), ?_⟩
  convert hlines.mpr (by decide +kernel) using 1
  decide +kernel

/-- A class whose name has a line end in it. -/
def splitNameClass : Bytes :=
  [202, 254, 186, 190, 0, 0, 0, 52, 0, 8, 1, 0, 3, 65, 10, 66, 7, 0, 1, 1, 0, 4, 67, 111, 100, 101,
    1, 0, 3, 40, 41, 86, 1, 0, 1, 120, 8, 0, 5, 1, 0, 1, 109, 0, 1, 0, 2, 0, 2, 0, 0, 0, 0, 0, 1,
    0, 9, 0, 7, 0, 4, 0, 1, 0, 3, 0, 0, 0, 16, 0, 1, 0, 1, 0, 0, 0, 4, 18, 6, 87, 177, 0, 0, 0, 0,
    0, 0]

def splitNameEntries : List (String × Bytes) := [("A.class", splitNameClass)]

theorem line_broken_by_className : ∃ listing, '\n' ∉ "a.jar".toList ∧
    Listing.ofBytes { path := "a.jar" } "a.jar" (Jar.build splitNameEntries) = .ok listing ∧
    listing.text = "a.jar: 1 strings in 1 classes (0 skipped)\n  #0 A\nB void m() \"x\"\n" ∧
    listing.shown.length = 1 ∧
    ¬∃ lines, HasLines listing.text.toList lines ∧ lines.length = 1 + listing.shown.length := by
  have hsmall : (Jar.mk (Jar.built splitNameEntries).toArray []).Small :=
    Jar.small_built (by decide +kernel) (by decide) (by decide) (by decide +kernel)
  have hkeeps : Zip.Keeps Entry.shown (Jar.built splitNameEntries) :=
    hsmall.ordinary.keeps Entry.shown
  have hlisting := Listing.ofBytes_build (by decide) (by decide) hkeeps { path := "a.jar" } "a.jar"
  dsimp only at hlisting
  refine ⟨_, by decide, hlisting, by decide +kernel, by decide +kernel, ?_⟩
  rintro ⟨lines, hlines, hlength⟩
  rw [← hlines.count_newline] at hlength
  revert hlength
  decide +kernel

end Command

end JarText
