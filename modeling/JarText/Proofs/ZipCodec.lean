import JarText.Bytes.Lemmas
import JarText.Proofs.PlainText
import JarText.Zip.Container

/-!
# Zip files are read back

`read_write`: the entries of a zip file are those that were written, each with its header and its
data. This is so as long as no number needs the longer records, and as long as what stands before
the last record cannot be taken for the locator of one: a long name could say just that.
-/

set_option autoImplicit false

namespace JarText.Zip

/-! ## Fields -/

namespace Fields

variable {α β : Type} {step : α → Fields β}

theorem bind_eq {field : Fields α} {front rest : Bytes} {a : α}
    (h : field front = .ok (a, rest)) : (field >>= step) front = step a rest := by
  simp only [bind, StateT.bind, Except.bind, h]

theorem bytes_append {chunk : Bytes} {count : Nat} (h : chunk.length = count) (rest : Bytes) :
    bytes count (chunk ++ rest) = .ok (chunk, rest) := by
  rw [bytes]
  simp only [List.take_left' h, List.drop_left' h, h, if_neg (Nat.lt_irrefl _)]

theorem number_littleEndian {width n : Nat} (h : n < 256 ^ width) (rest : Bytes) :
    number width (Bytes.littleEndian width n ++ rest) = .ok (n, rest) := by
  have hbytes := bytes_append (Bytes.length_littleEndian width n) rest
  have hvalue := Bytes.littleEndianValue_littleEndian width n
  rw [Nat.mod_eq_of_lt h] at hvalue
  simp only [number, Functor.map, StateT.map, bind, Except.bind, hbytes, hvalue]
  rfl

theorem skip_append {chunk : Bytes} {count : Nat} (h : chunk.length = count) (rest : Bytes) :
    skip count (chunk ++ rest) = .ok ((), rest) := by
  simp only [skip, discard, Functor.discard, Functor.mapConst, Function.comp,
    StateT.map, bind, Except.bind, bytes_append h]
  rfl

theorem bytes_bind {chunk : Bytes} {count : Nat} {step : Bytes → Fields β}
    (h : chunk.length = count) (rest : Bytes) :
    (bytes count >>= step) (chunk ++ rest) = step chunk rest :=
  bind_eq (bytes_append h rest)

theorem number_bind {width n : Nat} {step : Nat → Fields β} (h : n < 256 ^ width) (rest : Bytes) :
    (number width >>= step) (Bytes.littleEndian width n ++ rest) = step n rest :=
  bind_eq (number_littleEndian h rest)

theorem skip_bind {chunk : Bytes} {count : Nat} {step : Unit → Fields β}
    (h : chunk.length = count) (rest : Bytes) :
    (skip count >>= step) (chunk ++ rest) = step () rest :=
  bind_eq (skip_append h rest)

end Fields

theorem fields_nil : fields [] = [] := rfl

theorem fields_cons (width n : Nat) (rest : List (Nat × Nat)) :
    fields ((width, n) :: rest) = Bytes.littleEndian width n ++ fields rest := rfl

theorem length_fields (numbers : List (Nat × Nat)) :
    (fields numbers).length = (numbers.map (·.1)).sum := by
  induction numbers with
  | nil => rfl
  | cons number rest ih =>
    rw [fields_cons, List.length_append, Bytes.length_littleEndian, ih, List.map_cons,
      List.sum_cons]

/-! ## Entries -/

namespace Entry

variable {entry : Entry}

/-- The header of an entry takes no longer records, and can be told from its record. -/
structure Fits (entry : Entry) : Prop where
  name : entry.nameBytes.length ≤ shortMark
  packedSize : entry.packedSize = entry.data.length
  data : entry.data.length ≤ longMark
  size : entry.size ≤ longMark
  method : entry.method ≠ DirectoryRecord.cipheredMethod
  mode : entry.mode ≠ some 0

theorem flags_lt (entry : Entry) : entry.flags < 256 ^ 2 := by
  have hlocked : entry.locked.toNat < 2 := entry.locked.toNat_lt
  rw [flags]
  split <;> omega

theorem locked_of_flags (entry : Entry) : (entry.flags % 2 == 1) = entry.locked := by
  rw [flags]
  cases entry.locked <;> split <;> rfl

theorem decodeName_nameBytes (entry : Entry) :
    DirectoryRecord.decodeName entry.flags entry.nameBytes = entry.name := by
  have hlocked : entry.locked.toNat < 2 := entry.locked.toNat_lt
  rw [DirectoryRecord.decodeName, flags, nameBytes]
  by_cases hplain : entry.name.toList.all (·.toNat < 128) = true
  · have hlow : (entry.locked.toNat + 0) / 2048 % 2 ≠ 1 := by omega
    rw [if_pos hplain, if_neg hlow]
    apply Text.CodePage437.decode_encode
    intro c hc
    exact of_decide_eq_true (List.all_eq_true.mp hplain c hc)
  · have hhigh : (entry.locked.toNat + 2048) / 2048 % 2 = 1 := by omega
    rw [if_neg hplain, if_pos hhigh]
    exact Text.Utf8.decodeLossy_encode entry.name

theorem attributes_lt (entry : Entry) : entry.attributes < 256 ^ 4 := by
  rw [attributes]
  split
  · rename_i mode _
    have hmode := mode.toNat_lt
    omega
  · decide

theorem Fits.modeOf?_attributes (h : entry.Fits) :
    DirectoryRecord.modeOf? 3 entry.attributes = entry.mode := by
  have hmode := h.mode
  rw [DirectoryRecord.modeOf?, attributes]
  cases hstated : entry.mode with
  | none => rfl
  | some mode =>
    have hne : mode.toNat ≠ 0 := by
      intro hzero
      apply hmode
      rw [hstated, ← @UInt16.ofNat_toNat mode, hzero]
      rfl
    have hdiv : mode.toNat * 65536 / 65536 = mode.toNat :=
      Nat.mul_div_cancel mode.toNat (by decide)
    have hne' : mode.toNat * 65536 ≠ 0 := by omega
    simp only [if_neg hne', if_true, hdiv, UInt16.ofNat_toNat]

theorem Fits.isLong_eq_false (h : entry.Fits) : entry.isLong = false := by
  rw [isLong, h.packedSize, Bool.or_eq_false_iff]
  exact ⟨decide_eq_false (Nat.not_lt.mpr h.data), decide_eq_false (Nat.not_lt.mpr h.size)⟩

theorem Fits.longNumbers_eq_nil (h : entry.Fits) {start : Nat} (hstart : start ≤ longMark) :
    entry.longNumbers start = [] := by
  have hnone : [entry.size, entry.packedSize, start].filter (longMark < ·) = [] := by
    rw [List.filter_eq_nil_iff, h.packedSize]
    intro n hn
    have hle : n ≤ longMark := by
      rcases List.mem_cons.mp hn with rfl | hn
      · exact h.size
      · rcases List.mem_cons.mp hn with rfl | hn
        · exact h.data
        · rwa [List.mem_singleton.mp hn]
    simpa using hle
  rw [longNumbers, hnone]
  rfl

end Entry

/-! ## The directory -/

/-- The directory's record of an entry that begins at `start`, once it is read. -/
def recordOf (entry : Entry) (start : Nat) : DirectoryRecord :=
  { entry.toEntryHeader with start }

theorem readFields_directoryRecord {entry : Entry} (h : entry.Fits) {start : Nat}
    (hstart : start ≤ longMark) (rest : Bytes) :
    DirectoryRecord.readFields (entry.directoryRecord start ++ rest) =
      .ok ((recordOf entry start, []), rest) := by
  have hshort : shortMark < 256 ^ 2 := by decide
  have hlong : longMark < 256 ^ 4 := by decide
  have hmade : madeBy < 256 ^ 2 := by decide
  have hflags := entry.flags_lt
  have hmethod : entry.method.toNat < 256 ^ 2 := entry.method.toNat_lt
  have htime : entry.time.toNat < 256 ^ 2 := entry.time.toNat_lt
  have hdate : entry.date.toNat < 256 ^ 2 := entry.date.toNat_lt
  have hchecksum : entry.checksum.toNat < 256 ^ 4 := entry.checksum.toNat_lt
  have hpacked : min entry.packedSize longMark = entry.packedSize :=
    Nat.min_eq_left (h.packedSize ▸ h.data)
  have hsize : min entry.size longMark = entry.size := Nat.min_eq_left h.size
  have hpacked' : entry.packedSize < 256 ^ 4 := by
    rw [h.packedSize]
    exact Nat.lt_of_le_of_lt h.data hlong
  have hsize' : entry.size < 256 ^ 4 := Nat.lt_of_le_of_lt h.size hlong
  have hname : entry.nameBytes.length < 256 ^ 2 := Nat.lt_of_le_of_lt h.name hshort
  have hattributes := entry.attributes_lt
  have hstart' : start < 256 ^ 4 := Nat.lt_of_le_of_lt hstart hlong
  rw [Entry.directoryRecord, h.longNumbers_eq_nil hstart]
  simp only [Entry.commonFields, fields_cons, fields_nil, hpacked, hsize, Nat.min_eq_left hstart,
    List.append_assoc, List.append_nil, List.length_nil]
  have hsignature : directorySignature.length = 4 := rfl
  rw [DirectoryRecord.readFields, Fields.bytes_bind hsignature]
  simp only [ne_eq, not_true_eq_false, if_false]
  have htwo (n : Nat) : (Bytes.littleEndian 2 n).length = 2 := Bytes.length_littleEndian 2 n
  have hfour (m n : Nat) : (Bytes.littleEndian 2 m ++ Bytes.littleEndian 2 n).length = 4 := by
    rw [List.length_append, htwo, htwo]
  have hnone : Fields.bytes 0 rest = .ok ([], rest) := @Fields.bytes_append [] 0 rfl rest
  have hend : Fields.skip 0 rest = .ok ((), rest) := @Fields.skip_append [] 0 rfl rest
  simp (disch := assumption) only [Fields.number_bind]
  rw [Fields.skip_bind (htwo _)]
  simp (disch := first | assumption | decide) only [Fields.number_bind]
  rw [← List.append_assoc (Bytes.littleEndian 2 0), Fields.skip_bind (hfour 0 0)]
  simp (disch := assumption) only [Fields.number_bind]
  rw [Fields.bytes_bind rfl, Fields.bind_eq hnone, Fields.bind_eq hend, entry.decodeName_nameBytes,
    entry.locked_of_flags, UInt16.ofNat_toNat, UInt16.ofNat_toNat, UInt16.ofNat_toNat,
    UInt32.ofNat_toNat, show madeBy / 256 = 3 from rfl, h.modeOf?_attributes]
  rfl

namespace DirectoryRecord

theorem read_directoryRecord {entry : Entry} (h : entry.Fits) {start : Nat}
    (hstart : start ≤ longMark) (rest : Bytes) :
    read 0 (entry.directoryRecord start ++ rest) = .ok (recordOf entry start, rest) := by
  have hmethod : ¬ ((recordOf entry start).method = cipheredMethod ∧ (!false) = true) :=
    fun ⟨hciphered, _⟩ => h.method hciphered
  have hoffset : ¬ UInt64.size ≤ (recordOf entry start).start + 0 := by
    have hlong : longMark < UInt64.size := by decide
    have hadd : (recordOf entry start).start + 0 = start := rfl
    omega
  have hextra : (liftM (takeExtra 0 [] (recordOf entry start) false) :
      Fields (DirectoryRecord × Bool)) rest = .ok ((recordOf entry start, false), rest) := rfl
  rw [read, Fields.bind_eq (readFields_directoryRecord h hstart rest)]
  refine (Fields.bind_eq hextra).trans ?_
  dsimp only
  rw [if_neg hmethod, if_neg hoffset]
  rfl

end DirectoryRecord

def recordsFrom : List Entry → (start : Nat) → List DirectoryRecord
  | [], _ => []
  | entry :: rest, start =>
    recordOf entry start :: recordsFrom rest (start + entry.localRecord.length)

theorem manyFrom_directory {entries : List Entry} (h : ∀ entry ∈ entries, entry.Fits) {start : Nat}
    (hlength : start + (entries.flatMap Entry.localRecord).length ≤ longMark)
    (done : List DirectoryRecord) (rest : Bytes) :
    Fields.manyFrom (DirectoryRecord.read 0) entries.length done (directory entries start ++ rest) =
      .ok (done.reverse ++ recordsFrom entries start, rest) := by
  induction entries generalizing start done with
  | nil => simp [Fields.manyFrom, directory, recordsFrom]
  | cons entry entries ih =>
    obtain ⟨hentry, hentries⟩ := List.forall_mem_cons.mp h
    rw [List.flatMap_cons, List.length_append] at hlength
    rw [List.length_cons, Fields.manyFrom, directory, List.append_assoc]
    dsimp only
    rw [DirectoryRecord.read_directoryRecord hentry (by omega)]
    dsimp only
    rw [ih hentries (by omega), recordsFrom, List.reverse_cons, List.append_assoc]
    rfl

/-! ## Data -/

theorem length_commonFields (entry : Entry) (long : Bool) (packedSize size extraLength : Nat) :
    (entry.commonFields long packedSize size extraLength).length = 26 := by
  rw [Entry.commonFields, length_fields]
  rfl

theorem Entry.Fits.localRecord_eq {entry : Entry} (h : entry.Fits) :
    entry.localRecord = (entrySignature
      ++ entry.commonFields false entry.packedSize entry.size 0) ++ (entry.nameBytes ++ entry.data) := by
  rw [Entry.localRecord, Entry.longSizes, h.isLong_eq_false]
  simp

theorem dataOffset_localRecord {entry : Entry} (h : entry.Fits) :
    DirectoryRecord.dataOffset
        (entrySignature ++ entry.commonFields false entry.packedSize entry.size 0) =
      .ok (DirectoryRecord.localLength + entry.nameBytes.length + 0, []) := by
  have hshort : shortMark < 256 ^ 2 := by decide
  have hname : entry.nameBytes.length < 256 ^ 2 := Nat.lt_of_le_of_lt h.name hshort
  have hsignature : entrySignature.length = 4 := rfl
  -- the fields before the two lengths are passed over
  have hsplit : entry.commonFields false entry.packedSize entry.size 0 =
      fields [(2, neededVersion false), (2, entry.flags), (2, entry.method.toNat),
        (2, entry.time.toNat), (2, entry.date.toNat), (4, entry.checksum.toNat),
        (4, entry.packedSize), (4, entry.size)] ++
      (Bytes.littleEndian 2 entry.nameBytes.length ++ (Bytes.littleEndian 2 0 ++ [])) := by
    simp only [Entry.commonFields, fields_cons, fields_nil, List.append_assoc, List.nil_append]
  rw [DirectoryRecord.dataOffset, Fields.bytes_bind hsignature, hsplit]
  dsimp only
  rw [if_neg (not_not_intro rfl), Fields.skip_bind (by rw [length_fields]; rfl),
    Fields.number_bind hname, Fields.number_bind (by decide)]
  rfl

theorem extract_append (front chunk back : Bytes) :
    ((front ++ (chunk ++ back)).toArray.extract front.length (front.length + chunk.length)).toList =
      chunk := by
  simp

theorem entry_recordOf {entry : Entry} (h : entry.Fits) (front back : Bytes) :
    DirectoryRecord.entry (front ++ (entry.localRecord ++ back)).toArray
      (recordOf entry front.length) = .ok entry := by
  obtain ⟨head, hhead⟩ : ∃ head,
      head = entrySignature ++ entry.commonFields false entry.packedSize entry.size 0 := ⟨_, rfl⟩
  have hlength : DirectoryRecord.localLength = head.length := by
    rw [hhead, List.length_append, length_commonFields]
    rfl
  have hoffset : DirectoryRecord.dataOffset head =
      .ok (head.length + entry.nameBytes.length + 0, []) := by
    rw [← hlength, hhead, dataOffset_localRecord h]
  have hrecord : front ++ (entry.localRecord ++ back) =
      front ++ (head ++ (entry.nameBytes ++ (entry.data ++ back))) := by
    rw [h.localRecord_eq, ← hhead]
    simp only [List.append_assoc]
  have hdata : front ++ (head ++ (entry.nameBytes ++ (entry.data ++ back))) =
      (front ++ head ++ entry.nameBytes) ++ (entry.data ++ back) := by
    simp only [List.append_assoc]
  have hstart : front.length + (head.length + entry.nameBytes.length + 0) =
      (front ++ head ++ entry.nameBytes).length := by
    simp only [List.length_append, Nat.add_assoc, Nat.add_zero]
  rw [hrecord, DirectoryRecord.entry]
  dsimp only [recordOf]
  rw [hlength, extract_append, hoffset]
  dsimp only [bind, Except.bind]
  rw [hstart, h.packedSize, hdata, extract_append]
  rfl

theorem mapM_recordsFrom {entries : List Entry} (h : ∀ entry ∈ entries, entry.Fits)
    (front back : Bytes) :
    (recordsFrom entries front.length).mapM
        (DirectoryRecord.entry (front ++ (entries.flatMap Entry.localRecord ++ back)).toArray) =
      .ok entries := by
  induction entries generalizing front with
  | nil => rfl
  | cons entry entries ih =>
    obtain ⟨hentry, hentries⟩ := List.forall_mem_cons.mp h
    have hrest := ih hentries (front ++ entry.localRecord)
    rw [List.length_append, List.append_assoc] at hrest
    rw [recordsFrom, List.mapM_cons, List.flatMap_cons, List.append_assoc,
      entry_recordOf hentry, hrest]
    rfl

/-! ## The last record -/

namespace DirectoryEnd

theorem lastPlace_of_high_lt {signature : Bytes} {low high : Nat} (bytes : Bytes) {position : Nat}
    (h : high < position) (best : Option Nat) :
    lastPlace signature low high bytes position best = best := by
  induction bytes generalizing position with
  | nil => rfl
  | cons byte bytes ih =>
    rw [lastPlace, decide_eq_false (Nat.not_le.mpr h), Bool.and_false, Bool.false_and]
    exact ih (Nat.lt_succ_of_lt h)

/-- A signature at the highest place is the last. -/
theorem lastPlace_append {signature front back : Bytes} {low position : Nat} (hback : back ≠ [])
    (hsignature : signature.isPrefixOf back = true) (hlow : low ≤ position + front.length)
    (best : Option Nat) :
    lastPlace signature low (position + front.length) (front ++ back) position best =
      some (position + front.length) := by
  induction front generalizing position best with
  | nil =>
    obtain ⟨byte, back, rfl⟩ := List.exists_cons_of_ne_nil hback
    rw [List.length_nil, Nat.add_zero] at hlow ⊢
    rw [List.nil_append, lastPlace, hsignature, decide_eq_true hlow, decide_eq_true (Nat.le_refl _)]
    exact lastPlace_of_high_lt back (Nat.lt_succ_self position) (some position)
  | cons byte front ih =>
    rw [List.length_cons, Nat.add_comm front.length, ← Nat.add_assoc] at hlow ⊢
    exact ih hlow _

end DirectoryEnd

theorem length_lastRecord (count size start : Nat) :
    (lastRecord count size start).length = DirectoryEnd.length := by
  rw [lastRecord, List.length_append, length_fields]
  rfl

def endOf (count size start : Nat) : DirectoryEnd :=
  { disk := 0, directoryDisk := 0, countOnDisk := count, count, size, offset := start, comment := [] }

theorem read_lastRecord {count size start : Nat} (hcount : count ≤ shortMark)
    (hsize : size ≤ longMark) (hstart : start ≤ longMark) :
    DirectoryEnd.read (lastRecord count size start) = .ok (endOf count size start, []) := by
  have hshort : shortMark < 256 ^ 2 := by decide
  have hlong : longMark < 256 ^ 4 := by decide
  have hcount' : count < 256 ^ 2 := Nat.lt_of_le_of_lt hcount hshort
  have hsize' : size < 256 ^ 4 := Nat.lt_of_le_of_lt hsize hlong
  have hstart' : start < 256 ^ 4 := Nat.lt_of_le_of_lt hstart hlong
  have hsignature : endSignature.length = 4 := rfl
  rw [lastRecord, Nat.min_eq_left hcount, Nat.min_eq_left hsize, Nat.min_eq_left hstart,
    DirectoryEnd.read, Fields.skip_bind hsignature]
  simp (disch := first | assumption | decide) only [fields_cons, fields_nil, Fields.number_bind]
  rfl

theorem find_append_lastRecord (front : Bytes) {count size start : Nat} (hcount : count ≤ shortMark)
    (hsize : size ≤ longMark) (hstart : start ≤ longMark) :
    DirectoryEnd.find (front ++ lastRecord count size start) =
      .ok (endOf count size start, front.length) := by
  have hlength := length_lastRecord count size start
  have hhigh : (front ++ lastRecord count size start).length - DirectoryEnd.length =
      0 + front.length := by
    rw [List.length_append, hlength]
    omega
  have hne : lastRecord count size start ≠ [] := by
    intro hnil
    rw [hnil] at hlength
    cases hlength
  have hprefix : endSignature.isPrefixOf (lastRecord count size start) = true := by
    rw [List.isPrefixOf_iff_prefix]
    exact List.prefix_append endSignature _
  have hshort : ¬ (front ++ lastRecord count size start).length < DirectoryEnd.length := by
    rw [List.length_append, hlength]
    omega
  rw [DirectoryEnd.find, if_neg hshort, hhigh]
  dsimp only
  rw [DirectoryEnd.lastPlace_append hne hprefix (by omega)]
  dsimp only
  rw [Nat.zero_add, List.drop_left' rfl, read_lastRecord hcount hsize hstart]
  rfl

/-! ## Files -/

/-- Whether what stands before the last record of a file begins like a locator. -/
def seemsLocated (bytes : Bytes) : Bool :=
  locatorSignature.isPrefixOf (bytes.drop (bytes.length - (20 + DirectoryEnd.length)))

/-- A zip file of these entries takes no longer records, and does not seem to. -/
structure Ordinary (entries : List Entry) : Prop where
  fits : ∀ entry ∈ entries, entry.Fits
  count : entries.length ≤ shortMark
  length : (write entries).length ≤ longMark
  unlocated : seemsLocated (write entries) = false

theorem locator?_eq_none {bytes : Bytes} {last : DirectoryEnd} (hcomment : last.comment = [])
    (h : seemsLocated bytes = false) : DirectoryPlace.locator? bytes last = none := by
  rw [DirectoryPlace.locator?, hcomment, List.length_nil, Nat.add_zero]
  dsimp only
  split
  · rfl
  · rw [if_neg]
    rw [Bool.not_eq_true]
    exact h

theorem ofEnd_endOf (count size start : Nat) :
    DirectoryPlace.ofEnd (endOf count size start) (start + size) = .ok ⟨start, count, 0⟩ := by
  have hplace : ¬ start + size < size + start := by omega
  have hshift : start + size - size - start = 0 := by omega
  simp only [DirectoryPlace.ofEnd, endOf, if_neg hplace, hshift, Nat.add_zero]

/-- A file of few entries that are not long has no longer records. -/
theorem write_eq {entries : List Entry} (hcount : entries.length ≤ shortMark)
    (hlength : (entries.flatMap Entry.localRecord).length + (directory entries 0).length ≤ longMark) :
    write entries = entries.flatMap Entry.localRecord ++ directory entries 0
      ++ lastRecord entries.length (directory entries 0).length
        (entries.flatMap Entry.localRecord).length := by
  have hfew : ¬ (shortMark < entries.length ∨
      longMark < max (directory entries 0).length (entries.flatMap Entry.localRecord).length) := by
    omega
  rw [write, longEnd]
  simp only [Bool.or_eq_true, decide_eq_true_eq, if_neg hfew, List.append_nil]

theorem find_write {entries : List Entry} (h : Ordinary entries) :
    DirectoryPlace.find (write entries) =
      .ok ⟨(entries.flatMap Entry.localRecord).length, entries.length, 0⟩ := by
  have hlength : (entries.flatMap Entry.localRecord).length + (directory entries 0).length ≤
      longMark := by
    have hwhole := h.length
    rw [write, List.length_append, List.length_append, List.length_append] at hwhole
    omega
  have hwrite := write_eq h.count hlength
  obtain ⟨records, hrecords⟩ : ∃ records, records = entries.flatMap Entry.localRecord := ⟨_, rfl⟩
  obtain ⟨listing, hlisting⟩ : ∃ listing, listing = directory entries 0 := ⟨_, rfl⟩
  rw [← hrecords, ← hlisting] at hwrite hlength
  have hlast := find_append_lastRecord (records ++ listing) h.count
    (show listing.length ≤ longMark by omega) (show records.length ≤ longMark by omega)
  obtain ⟨last, hlastEq⟩ : ∃ last, last = endOf entries.length listing.length records.length :=
    ⟨_, rfl⟩
  have hdisks : (!last.isTooSmall && decide (last.disk ≠ last.directoryDisk)) = false := by
    rw [hlastEq]
    exact Bool.and_false _
  rw [DirectoryPlace.find, hwrite, hlast, ← hwrite, ← hlastEq]
  dsimp only [bind, Except.bind]
  rw [hdisks, if_neg Bool.false_ne_true, hlastEq, locator?_eq_none rfl h.unlocated]
  dsimp only
  rw [List.length_append, ofEnd_endOf, hrecords]

/-- The entries that were written are read back. -/
theorem read_write {entries : List Entry} (h : Ordinary entries) :
    read (write entries) = .ok entries := by
  obtain ⟨rest, hwrite⟩ : ∃ rest, write entries =
      entries.flatMap Entry.localRecord ++ (directory entries 0 ++ rest) := by
    rw [write, List.append_assoc, List.append_assoc]
    exact ⟨_, rfl⟩
  have hlength : 0 + (entries.flatMap Entry.localRecord).length ≤ longMark := by
    have hwhole := h.length
    rw [hwrite, List.length_append] at hwhole
    omega
  have hdirectory := manyFrom_directory h.fits hlength [] rest
  have hdata := mapM_recordsFrom h.fits [] (directory entries 0 ++ rest)
  rw [read, find_write h]
  dsimp only [bind, Except.bind]
  rw [hwrite, List.drop_left' rfl, hdirectory]
  exact hdata

/-- The file with these entries is read as so many entries that show the same, in the same order. -/
def Keeps {γ : Type} (view : Entry → γ) (entries : List Entry) : Prop :=
  ∃ found, read (write entries) = .ok found ∧ found.map view = entries.map view

theorem Ordinary.keeps {γ : Type} {entries : List Entry} (h : Ordinary entries) (view : Entry → γ) :
    Keeps view entries :=
  ⟨entries, read_write h, rfl⟩

end JarText.Zip
