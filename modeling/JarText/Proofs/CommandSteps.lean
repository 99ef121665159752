import JarText.Command.Run
import JarText.FileTree
import JarText.Proofs.PlainText
import JarText.Proofs.WrittenFiles

/-!
# Commands in a tree of files

What the steps of a command come to when the files are a tree: a result or a failure, the warnings so
far, and the tree that is left. A step that fails is the last; the warnings before it stay.
-/

set_option autoImplicit false

namespace JarText.Command

open Text

variable {α β ε : Type} {said said' : List String} {tree tree' : FileTree}

/-- The end of a step that was begun after some warnings. -/
def ending (step : Step (StateM FileTree) α) (said : List String) (tree : FileTree) :
    (Except Failure α × List String) × FileTree :=
  ((step.run).run said).run tree

theorem ending_pure (result : α) : ending (pure result) said tree = ((.ok result, said), tree) := rfl

theorem ending_lift (result : α) :
    ending (liftM (.ok result : Except Failure α)) said tree = ((.ok result, said), tree) := rfl

theorem ending_warn (warnings : List String) :
    ending (warn warnings) said tree = ((.ok (), said ++ warnings), tree) := rfl

theorem ending_orFail_ok (message : String) (chain : ε → Failure) (result : α) :
    ending (orFail message chain (.ok result)) said tree = ((.ok result, said), tree) := rfl

theorem ending_orFail_error (message : String) (chain : ε → Failure) (fault : ε) :
    ending (orFail message chain (.error fault) : Step (StateM FileTree) α) said tree =
      ((.error (message :: chain fault), said), tree) := rfl

theorem ending_bind (step : Step (StateM FileTree) α) (next : α → Step (StateM FileTree) β) :
    ending (step >>= next) said tree =
      match ending step said tree with
      | ((.ok result, said'), tree') => ending (next result) said' tree'
      | ((.error failure, said'), tree') => ((.error failure, said'), tree') := by
  change (match ending step said tree with
    | ((result, said'), tree') => (ExceptT.bindCont next result).run said' tree') = _
  obtain ⟨⟨result, said'⟩, tree'⟩ := ending step said tree
  cases result <;> rfl

theorem ending_bind_of_ok {step : Step (StateM FileTree) α} {result : α}
    (h : ending step said tree = ((.ok result, said'), tree'))
    (next : α → Step (StateM FileTree) β) :
    ending (step >>= next) said tree = ending (next result) said' tree' := by
  rw [ending_bind, h]

theorem ending_bind_of_error {step : Step (StateM FileTree) α} {failure : Failure}
    (h : ending step said tree = ((.error failure, said'), tree'))
    (next : α → Step (StateM FileTree) β) :
    ending (step >>= next) said tree = ((.error failure, said'), tree') := by
  rw [ending_bind, h]

theorem ending_ask {question : StateM FileTree α} {answer : α}
    (h : question.run tree = (answer, tree')) :
    ending (ask question) said tree = ((.ok answer, said), tree') := by
  change ((Except.ok (question.run tree).1, said), (question.run tree).2) = _
  rw [h]

/-! ## Questions -/

section Questions

variable {path : String} {bytes : Bytes}

theorem run_kind? (path : String) :
    (Files.kind? path : StateM FileTree (Option FileKind)).run tree = (tree.kind? path, tree) := rfl

theorem run_read (path : String) :
    (Files.read path : StateM FileTree (Except FileFault Bytes)).run tree =
      (tree.read path, tree) := rfl

theorem run_readText {text : String} (h : tree.read path = .ok (Utf8.encode text)) :
    (Files.readText path : StateM FileTree (Except FileFault String)).run tree =
      (.ok text, tree) := by
  rw [Files.readText, StateT.run_bind, run_read, h]
  dsimp only [bind, pure]
  rw [Utf8.decode?_encode]
  rfl

theorem run_write (h : tree.write path bytes = .ok tree') :
    (Files.write path bytes : StateM FileTree (Except FileFault Unit)).run tree =
      (.ok (), tree') := by
  dsimp only [Files.write]
  rw [StateT.run_bind, StateT.run_get]
  dsimp only [bind, pure]
  rw [h]
  rfl

theorem run_save {jar : Jar} (h : tree.write path jar.toBytes = .ok tree') :
    (jar.save path : StateM FileTree (Except Fault Unit)).run tree = (.ok (), tree') := by
  rw [Jar.save, StateT.run_bind, run_write h]
  rfl

theorem run_outcome (step : Step (StateM FileTree) String) : (outcome step).run tree =
    match ending step [] tree with
    | ((.ok output, warnings), tree') => (.success output warnings, tree')
    | ((.error failure, warnings), tree') => (.failed failure warnings, tree') := by
  obtain ⟨⟨⟨result, warnings⟩, tree'⟩, hending⟩ : ∃ given, ending step [] tree = given := ⟨_, rfl⟩
  have hrun : ((step.run).run []).run tree = ((result, warnings), tree') := hending
  rw [outcome, StateT.run_bind, hrun, hending]
  cases result <;> rfl

end Questions

def carryOutIn (tree : FileTree) (request : Request) : Outcome × FileTree :=
  (carryOut request : StateM FileTree Outcome).run tree

/-! ## Scanning one jar -/

def listingOf (request : ScanRequest) (bytes : Bytes) (jar : Jar) : Listing :=
  let report := (ArchiveScan.run (Listing.runConfig request) .never jar).report
  { path := request.path, fingerprint := fingerprint bytes, report
    shown := Filter.strings (!request.showBlank) request.query report.strings }

theorem listing_ofBytes {request : ScanRequest} {bytes : Bytes} {jar : Jar}
    (h : Jar.ofBytes bytes = .ok jar) :
    Listing.ofBytes request request.path bytes = .ok (listingOf request bytes jar) := by
  rw [Listing.ofBytes, h]
  rfl

section Scanning

variable {request : ScanRequest} {path : String} {bytes : Bytes} {found : Listing}

theorem ending_listing (hread : tree.read path = .ok bytes)
    (hlisting : Listing.ofBytes request path bytes = .ok found) :
    ending (listing request path) said tree =
      ((.ok found, said ++ ArchiveScan.warnings found.report), tree) := by
  have hbytes := (run_read path).trans (congrArg (·, tree) hread)
  unfold listing
  rw [ending_bind_of_ok (ending_ask hbytes), ending_bind_of_ok (ending_orFail_ok _ _ bytes),
    hlisting, ending_bind_of_ok (ending_orFail_ok _ _ found), ending_bind_of_ok (ending_warn _),
    ending_pure]

theorem ending_scanned (hread : tree.read request.path = .ok bytes)
    (hlisting : Listing.ofBytes request request.path bytes = .ok found) :
    ending (scanned request) said tree =
      ((.ok (jarOutput request.format found), said ++ ArchiveScan.warnings found.report), tree) := by
  have hkind := (run_kind? request.path).trans (congrArg (·, tree) (FileTree.kind?_of_read hread))
  unfold scanned
  rw [ending_bind_of_ok (ending_ask hkind)]
  dsimp only
  rw [ending_bind_of_ok (ending_listing hread hlisting), ending_pure]

/-- A scan ends well and gives a text: it prints the text, with a line end, or writes it to the file
that was asked for. -/
def Gives (tree : FileTree) (request : ScanRequest) (text : String) : Prop :=
  ∃ outcome tree', carryOutIn tree (.scan request) = (outcome, tree') ∧ outcome.code = 0 ∧
    match request.output with
    | none => outcome.output = endLine text ∧ tree' = tree
    | some path => tree'.read path = .ok (Utf8.encode text)

theorem gives_jarOutput (hread : tree.read request.path = .ok bytes)
    (hlisting : Listing.ofBytes request request.path bytes = .ok found)
    (hwrites : ∀ path ∈ request.output, ∀ content, ∃ tree', tree.write path content = .ok tree') :
    Gives tree request (jarOutput request.format found) := by
  have hscanned : ending (scanned request) [] tree = _ := ending_scanned hread hlisting
  generalize jarOutput request.format found = text at hscanned ⊢
  unfold Gives carryOutIn
  rw [carryOut, run_outcome]
  unfold scan
  rw [ending_bind_of_ok hscanned]
  cases houtput : request.output with
  | none => exact ⟨.success (endLine text) _, tree, rfl, rfl, rfl, rfl⟩
  | some path =>
    obtain ⟨tree', hwrite⟩ := hwrites path houtput (Utf8.encode text)
    dsimp only
    rw [ending_bind_of_ok (ending_ask (run_write hwrite)),
      ending_bind_of_ok (ending_orFail_ok _ _ ()), ending_pure]
    exact ⟨.success "" _, tree', rfl, rfl, FileTree.read_write hwrite⟩

end Scanning

/-! ## Applying a sheet -/

/-- What `apply` is given without `force`: a jar, one sheet, and a path where nothing is and where a
file can be written. -/
structure Given (request : ApplyRequest) (tree : FileTree) (bytes : Bytes) (sheet : Sheet) :
    Prop where
  jar : tree.read request.jar = .ok bytes
  parsed : ∃ text, tree.read request.sheet = .ok (Utf8.encode text) ∧ Sheet.parse text = .ok [sheet]
  unforced : request.force = false
  free : tree.kind? request.output = none
  writes : ∀ content, ∃ tree', tree.write request.output content = .ok tree'

section Applying

variable {request : ApplyRequest} {bytes : Bytes} {sheet : Sheet} {jar : Jar}

/-- A sheet that was made from the jar is accepted. -/
theorem ending_apply (h : Given request tree bytes sheet)
    (hsheet : sheet.fingerprint = fingerprint bytes) (hjar : Jar.ofBytes bytes = .ok jar) :
    ∃ said, ending (apply request) [] tree =
      ending (do
        let summary ← orFail ("Failed to apply " ++ request.sheet) Fault.chain
          (Edit.applyToArchive jar sheet.edits).result
        orFail ("Failed to save " ++ request.output) Fault.chain
          (← ask ((Edit.applyToArchive jar sheet.edits).archive.save request.output))
        return "Wrote " ++ request.output
          ++ s!" ({summary.edits} strings in {summary.entries} classes changed)\n") said tree := by
  obtain ⟨text, htext, hparse⟩ := h.parsed
  have hbytes := (run_read request.jar).trans (congrArg (·, tree) h.jar)
  have hkind := (run_kind? request.output).trans (congrArg (·, tree) h.free)
  have hfound : [sheet].find? (fun other => other.fingerprint == fingerprint bytes) = some sheet :=
    List.find?_cons_of_pos (beq_iff_eq.mpr hsheet)
  have hselect : select [sheet] (fingerprint bytes) request.force = .ok (sheet, []) := by
    unfold select
    rw [hfound]
  have hfree : ¬((none : Option FileKind).isSome && !request.force) = true := by simp
  unfold apply
  dsimp only
  rw [ending_bind_of_ok (ending_ask hbytes), ending_bind_of_ok (ending_orFail_ok _ _ bytes),
    ending_bind_of_ok (ending_ask (run_readText htext)),
    ending_bind_of_ok (ending_orFail_ok _ _ text), hparse,
    ending_bind_of_ok (ending_orFail_ok _ _ [sheet]), hselect,
    ending_bind_of_ok (ending_lift (sheet, []))]
  dsimp only
  rw [ending_bind_of_ok (ending_warn [])]
  split
  · rw [ending_bind_of_ok (ending_warn _), ending_bind_of_ok (ending_ask hkind), if_neg hfree, hjar,
      ending_bind_of_ok (ending_orFail_ok _ _ jar), ending_bind_of_ok (ending_warn _)]
    exact ⟨_, rfl⟩
  · rw [ending_bind_of_ok (ending_ask hkind), if_neg hfree, hjar,
      ending_bind_of_ok (ending_orFail_ok _ _ jar), ending_bind_of_ok (ending_warn _)]
    exact ⟨_, rfl⟩

/-- Edits that fail are all that can fail, and they leave every file as it was. -/
theorem run_apply_of_error {fault : Fault} (h : Given request tree bytes sheet)
    (hsheet : sheet.fingerprint = fingerprint bytes) (hjar : Jar.ofBytes bytes = .ok jar)
    (hresult : (Edit.applyToArchive jar sheet.edits).result = .error fault) :
    ∃ warnings, carryOutIn tree (.apply request) =
      (.failed (("Failed to apply " ++ request.sheet) :: fault.chain) warnings, tree) := by
  obtain ⟨said, hending⟩ := ending_apply h hsheet hjar
  rw [hresult, ending_bind_of_error (ending_orFail_error _ _ fault)] at hending
  rw [carryOutIn, carryOut, run_outcome, hending]
  exact ⟨said, rfl⟩

theorem run_apply_of_ok {summary : EditSummary} (h : Given request tree bytes sheet)
    (hsheet : sheet.fingerprint = fingerprint bytes) (hjar : Jar.ofBytes bytes = .ok jar)
    (hresult : (Edit.applyToArchive jar sheet.edits).result = .ok summary) :
    ∃ output warnings tree', carryOutIn tree (.apply request) =
        (.success output warnings, tree') ∧
      tree'.read request.output =
        .ok (Edit.applyToArchive jar sheet.edits).archive.toBytes := by
  obtain ⟨said, hending⟩ := ending_apply h hsheet hjar
  obtain ⟨tree', hwrite⟩ := h.writes (Edit.applyToArchive jar sheet.edits).archive.toBytes
  rw [hresult, ending_bind_of_ok (ending_orFail_ok _ _ summary),
    ending_bind_of_ok (ending_ask (run_save hwrite)), ending_bind_of_ok (ending_orFail_ok _ _ ()),
    ending_pure] at hending
  rw [carryOutIn, carryOut, run_outcome, hending]
  exact ⟨_, said, tree', rfl, FileTree.read_write hwrite⟩

end Applying

end JarText.Command
