import JarText.Proofs.DeflateSize
import JarText.Proofs.ZipCodec

/-!
# Zip files of small entries

A file with few entries, none of which is long, is an ordinary one: its directory is where the last
record says, and no number needs the longer records. What stands before the last record begins with
a zero if the last name is of a common length, so it is not taken for a locator.
-/

set_option autoImplicit false

namespace JarText.Zip

namespace Entry

/-- An entry of no more than a megabyte, which is as long as it says. -/
def Small (entry : Entry) : Prop :=
  entry.nameBytes.length ≤ 1024 ∧ entry.packedSize = entry.data.length ∧
    entry.data.length ≤ 1048576 ∧ entry.size ≤ longMark ∧
    entry.method ≠ DirectoryRecord.cipheredMethod ∧ entry.mode ≠ some 0

instance (entry : Entry) : Decidable entry.Small :=
  inferInstanceAs (Decidable (_ ∧ _))

variable {entry : Entry}

theorem Small.fits (h : entry.Small) : entry.Fits := by
  obtain ⟨hname, hpacked, hdata, hsize, hmethod, hmode⟩ := h
  have hshort : shortMark = 65535 := rfl
  have hlong : longMark = 4294967295 := rfl
  exact ⟨by omega, hpacked, by omega, hsize, hmethod, hmode⟩

theorem small_ofContent {name : String} {content : Bytes}
    (hname : (Text.Utf8.encode name).length ≤ 1024) (hcontent : content.length ≤ 1000) :
    (ofContent name content).Small := by
  have hdata := length_deflate_le content
  have hlong : longMark = 4294967295 := rfl
  refine ⟨hname, rfl, ?_, ?_, (by decide : deflatedMethod ≠ DirectoryRecord.cipheredMethod),
    (by decide : some plainFileMode ≠ some 0)⟩
  · exact hdata.trans (by omega)
  · show content.length ≤ longMark
    omega

theorem small_folder {name : String} (hname : (Text.Utf8.encode name).length ≤ 1024) :
    (folder name).Small :=
  ⟨hname, rfl, Nat.zero_le _, Nat.zero_le _,
    (by decide : storedMethod ≠ DirectoryRecord.cipheredMethod),
    (by decide : some folderMode ≠ some 0)⟩

theorem copiedMode_ne (mode : Option UInt16) : copiedMode mode ≠ some 0 := by
  cases mode with
  | none => decide
  | some mode =>
    rw [copiedMode]
    split
    · exact fun hnone => by cases hnone
    · rename_i hmode
      exact fun hzero => hmode (Option.some.inj hzero)

theorem Small.copied (h : entry.Small) : entry.copied.Small := by
  obtain ⟨hname, hpacked, hdata, hsize, hmethod, _⟩ := h
  exact ⟨hname, hpacked, hdata, hsize, hmethod, copiedMode_ne entry.mode⟩

theorem Fits.length_localRecord (h : entry.Fits) :
    entry.localRecord.length = 30 + entry.nameBytes.length + entry.data.length := by
  have hsignature : entrySignature.length = 4 := rfl
  rw [h.localRecord_eq, List.length_append, List.length_append, List.length_append,
    length_commonFields, hsignature]
  omega

/-- The record of an entry in the directory: the eight bytes in its middle are zero. -/
theorem Fits.exists_directoryRecord (h : entry.Fits) {start : Nat} (hstart : start ≤ longMark) :
    ∃ front back, entry.directoryRecord start = front ++ (List.replicate 8 0 ++ back) ∧
      front.length = 30 ∧ back.length = 8 + entry.nameBytes.length := by
  refine ⟨directorySignature ++ fields [(2, madeBy), (2, neededVersion false), (2, entry.flags),
    (2, entry.method.toNat), (2, entry.time.toNat), (2, entry.date.toNat),
    (4, entry.checksum.toNat), (4, min entry.packedSize longMark), (4, min entry.size longMark),
    (2, entry.nameBytes.length)],
    fields [(4, entry.attributes), (4, min start longMark)] ++ entry.nameBytes, ?_, ?_, ?_⟩
  · rw [directoryRecord, h.longNumbers_eq_nil hstart]
    simp only [commonFields, fields_cons, fields_nil, List.append_assoc, List.append_nil]
    rfl
  · rw [List.length_append, length_fields]
    rfl
  · rw [List.length_append, length_fields]
    rfl

end Entry

/-! ## Lengths -/

variable {entries : List Entry}

def space (entry : Entry) : Nat := 76 + 2 * entry.nameBytes.length + entry.data.length

theorem length_records_add_directory (h : ∀ entry ∈ entries, entry.Fits) {start : Nat}
    (hspace : start + (entries.map space).sum ≤ longMark) :
    (entries.flatMap Entry.localRecord).length + (directory entries start).length =
      (entries.map space).sum := by
  induction entries generalizing start with
  | nil => rfl
  | cons entry entries ih =>
    obtain ⟨hentry, hentries⟩ := List.forall_mem_cons.mp h
    rw [List.map_cons, List.sum_cons] at hspace
    obtain ⟨front, back, hrecord, hfront, hback⟩ :=
      hentry.exists_directoryRecord (show start ≤ longMark by omega)
    have hlocal := hentry.length_localRecord
    have hrest := @ih hentries (start + entry.localRecord.length)
      (by rw [space] at hspace; omega)
    rw [List.flatMap_cons, directory, hrecord, List.map_cons, List.sum_cons, space]
    simp only [List.length_append, List.length_replicate]
    omega

theorem directory_append (front back : List Entry) (start : Nat) :
    directory (front ++ back) start = directory front start
      ++ directory back (start + (front.flatMap Entry.localRecord).length) := by
  induction front generalizing start with
  | nil => rfl
  | cons entry front ih =>
    rw [List.cons_append, directory, directory, ih, List.flatMap_cons, List.length_append,
      List.append_assoc, Nat.add_assoc]

/-! ## What stands before the last record -/

theorem seemsLocated_of_zeros (front : Bytes) {back : Bytes} (hleast : 34 ≤ back.length)
    (hmost : back.length ≤ 41) :
    seemsLocated (front ++ (List.replicate 8 0 ++ back)) = false := by
  have hlast : DirectoryEnd.length = 22 := rfl
  obtain ⟨count, hcount⟩ : ∃ count, count + 1 = 42 - back.length := ⟨41 - back.length, by omega⟩
  have hplace : (front ++ (List.replicate 8 0 ++ back)).length - (20 + DirectoryEnd.length) =
      front.length + (8 - (count + 1)) := by
    rw [List.length_append, List.length_append, List.length_replicate, hlast]
    omega
  have hdrop : (front ++ (List.replicate 8 0 ++ back)).drop (front.length + (8 - (count + 1))) =
      0 :: (List.replicate count 0 ++ back) := by
    rw [List.drop_append, List.drop_eq_nil_of_le (Nat.le_add_right _ _), List.nil_append,
      Nat.add_sub_cancel_left, List.drop_append_of_le_length (by rw [List.length_replicate]; omega),
      List.drop_replicate, show 8 - (8 - (count + 1)) = count + 1 by omega]
    rfl
  rw [seemsLocated, hplace, hdrop]
  rfl

/-- The last name of a file has a common length. -/
def CommonLast (entries : List Entry) : Prop :=
  ∀ last ∈ entries.getLast?, 4 ≤ last.nameBytes.length ∧ last.nameBytes.length ≤ 11

instance (entries : List Entry) : Decidable (CommonLast entries) :=
  inferInstanceAs (Decidable (∀ last ∈ entries.getLast?, _))

theorem sum_space_le (h : ∀ entry ∈ entries, entry.Small) :
    (entries.map space).sum ≤ 1060000 * entries.length := by
  induction entries with
  | nil => exact Nat.le_refl _
  | cons entry entries ih =>
    obtain ⟨hentry, hentries⟩ := List.forall_mem_cons.mp h
    have hrest := ih hentries
    obtain ⟨hname, _, hdata, _⟩ := hentry
    rw [List.map_cons, List.sum_cons, List.length_cons, space]
    omega

/-- A file of no more than a thousand small entries is an ordinary one. -/
theorem ordinary_of_small (h : ∀ entry ∈ entries, entry.Small) (hcount : entries.length ≤ 1000)
    (hlast : CommonLast entries) : Ordinary entries := by
  have hfits : ∀ entry ∈ entries, entry.Fits := fun entry hentry => (h entry hentry).fits
  have hspace := sum_space_le h
  have hshort : shortMark = 65535 := rfl
  have hlong : longMark = 4294967295 := rfl
  have hlength := @length_records_add_directory entries hfits 0 (by omega)
  have hwrite := write_eq (show entries.length ≤ shortMark by omega)
    (show (entries.flatMap Entry.localRecord).length + (directory entries 0).length ≤ longMark by
      omega)
  refine ⟨hfits, by omega, ?_, ?_⟩
  · rw [hwrite, List.length_append, List.length_append, length_lastRecord, DirectoryEnd.length]
    omega
  · rcases List.eq_nil_or_concat' entries with rfl | ⟨init, last, rfl⟩
    · rfl
    · obtain ⟨hleast, hmost⟩ := hlast last (by rw [List.getLast?_concat]; rfl)
      have hmem : last ∈ init ++ [last] := List.mem_append_right init List.mem_cons_self
      have hstart : 0 + (init.flatMap Entry.localRecord).length ≤ longMark := by
        rw [List.flatMap_append, List.length_append] at hlength
        omega
      obtain ⟨front, back, hrecord, _, hback⟩ := (hfits last hmem).exists_directoryRecord hstart
      have hdirectory : directory (init ++ [last]) 0 =
          directory init 0 ++ (front ++ (List.replicate 8 0 ++ back)) := by
        rw [directory_append, directory, directory, List.append_nil, hrecord]
      obtain ⟨tail, htail, hfile⟩ : ∃ tail : Bytes, tail.length = 22 ∧
          write (init ++ [last]) = (init ++ [last]).flatMap Entry.localRecord
            ++ directory (init ++ [last]) 0 ++ tail :=
        ⟨_, length_lastRecord _ _ _, hwrite⟩
      have hplaced : write (init ++ [last]) =
          ((init ++ [last]).flatMap Entry.localRecord ++ (directory init 0 ++ front))
            ++ (List.replicate 8 0 ++ (back ++ tail)) := by
        rw [hfile, hdirectory]
        simp only [List.append_assoc]
      rw [hplaced]
      apply seemsLocated_of_zeros
      · rw [List.length_append]
        omega
      · rw [List.length_append]
        omega

end JarText.Zip
