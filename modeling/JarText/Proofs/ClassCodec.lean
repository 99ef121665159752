import JarText.ClassFile
import JarText.Proofs.PoolCodec

/-!
# Class files as bytes

`ClassFile.read_eq_ok_iff` is the exact relation between the two directions of the codec: a class
is read from some bytes if and only if its numbers fit their fields and the bytes are the ones that
it is written as. That reading is lossless follows at once.
-/

set_option autoImplicit false

namespace JarText

open Reader

namespace Pool

/-- Reading a pool undoes writing it, and accepts nothing else. -/
theorem reads_read : Reads read write Fits := by
  intro cursor pool next
  simp only [read, bind_eq_ok_iff, uint16_eq_ok_iff]
  constructor
  · rintro ⟨count, middle, hcount, h⟩
    split at h
    · cases h
    · rename_i hne
      obtain ⟨filled, last, hslots, hpure⟩ := bind_eq_ok_iff.mp h
      obtain ⟨rfl, rfl⟩ := pure_eq_ok_iff.mp hpure
      obtain ⟨constants, hlength, hfilled, hfits, hpasses⟩ := readSlots_eq_ok_iff.mp hslots
      have hholds : Holds ⟨filled⟩ constants := hfilled
      have hpos : count.toNat ≠ 0 := fun h0 => hne (UInt16.toNat_inj.mp h0)
      have hsize : filled.size = count.toNat := by
        have := hholds.size_eq
        simp only at this
        omega
      have hcounted : count = Pool.count ⟨filled⟩ := by
        rw [Pool.count, hsize, UInt16.ofNat_toNat]
      refine ⟨⟨?_, constants, hholds, hfits⟩, ?_⟩
      · exact hsize ▸ count.toNat_lt
      · rw [hholds.write_eq, ← hcounted]
        exact Cursor.passes_append_iff.mpr ⟨middle, hcount, hpasses⟩
  · rintro ⟨⟨hlt, constants, hholds, hfits⟩, hpass⟩
    rw [hholds.write_eq] at hpass
    obtain ⟨middle, hcount, hpasses⟩ := Cursor.passes_append_iff.mp hpass
    have hsize := hholds.size_eq
    have hnat : pool.count.toNat = pool.slots.size := UInt16.toNat_ofNat_of_lt' hlt
    refine ⟨pool.count, middle, hcount, ?_⟩
    rw [if_neg (fun h0 => by rw [h0] at hnat; simp only [UInt16.toNat_zero] at hnat; omega)]
    refine bind_eq_ok_iff.mpr ⟨pool.slots, next, ?_, pure_eq_ok_iff.mpr ⟨rfl, rfl⟩⟩
    exact readSlots_eq_ok_iff.mpr ⟨constants, by omega, hholds, hfits, hpasses⟩

end Pool

namespace Attribute

def Fits (attr : Attribute) : Prop := attr.info.length < 4294967296

def AllFit (attributes : List Attribute) : Prop :=
  attributes.length < 65536 ∧ ∀ attr ∈ attributes, attr.Fits

theorem reads_read : Reads read write Fits := by
  intro cursor attr next
  simp only [read, write, bind_eq_ok_iff, uint16_eq_ok_iff, uint32_eq_ok_iff, take_eq_ok_iff,
    pure_eq_ok_iff, Cursor.passes_append_iff]
  constructor
  · rintro ⟨name, middle, hname, length, middle', hlength, info, last, ⟨hinfo, hpass⟩, rfl, rfl⟩
    have hlt : info.length < 4294967296 := hinfo ▸ length.toNat_lt
    refine ⟨hlt, middle', ⟨middle, hname, ?_⟩, hpass⟩
    rwa [hinfo]
  · rintro ⟨hlt, middle', ⟨middle, hname, hlength⟩, hpass⟩
    have hnat : (UInt32.ofNat attr.info.length).toNat = attr.info.length :=
      UInt32.toNat_ofNat_of_lt' hlt
    refine ⟨attr.name, middle, hname, UInt32.ofNat attr.info.length, middle', ?_, attr.info, next,
      ⟨hnat.symm, hpass⟩, rfl, rfl⟩
    rwa [Bytes.ofUInt32, hnat]

theorem reads_readAll : Reads readAll writeAll AllFit :=
  reads_counted reads_read "attributes_count"

end Attribute

namespace Member

def Fits (member : Member) : Prop := Attribute.AllFit member.attributes

def AllFit (members : List Member) : Prop :=
  members.length < 65536 ∧ ∀ member ∈ members, member.Fits

theorem reads_read : Reads read write Fits := by
  intro cursor member next
  simp only [read, write, bind_eq_ok_iff, uint16_eq_ok_iff, Attribute.reads_readAll _ _ _,
    pure_eq_ok_iff, Cursor.passes_append_iff]
  constructor
  · rintro ⟨access, a, haccess, name, b, hname, descriptor, c, hdescriptor, attributes, d,
      ⟨hfits, hpass⟩, rfl, rfl⟩
    exact ⟨hfits, c, ⟨b, ⟨a, haccess, hname⟩, hdescriptor⟩, hpass⟩
  · rintro ⟨hfits, c, ⟨b, ⟨a, haccess, hname⟩, hdescriptor⟩, hpass⟩
    exact ⟨_, a, haccess, _, b, hname, _, c, hdescriptor, _, next, ⟨hfits, hpass⟩, rfl, rfl⟩

theorem reads_counted_read (part : String) : Reads (counted part read) writeAll AllFit :=
  reads_counted reads_read part

end Member

namespace ClassFile

/-- Whether every number of the class fits the field that it is written in. -/
structure Fits (file : ClassFile) : Prop where
  pool : file.pool.Fits
  interfaces : file.interfaces.length < 65536
  fields : Member.AllFit file.fields
  methods : Member.AllFit file.methods
  attributes : Attribute.AllFit file.attributes

theorem throw_ne_ok {α : Type} {fault : Fault} {cursor : Cursor} {result : α × Cursor} :
    (throw fault : Reader α) cursor ≠ .ok result := by
  intro h
  cases h

theorem reads_interfaces :
    Reads (counted "interfaces_count" (uint16 "interface index"))
      (fun interfaces =>
        Bytes.bigEndian 2 interfaces.length ++ interfaces.flatMap Bytes.ofUInt16)
      (fun interfaces => interfaces.length < 65536 ∧ ∀ index ∈ interfaces, True) :=
  reads_counted (fun _ _ _ => by rw [uint16_eq_ok_iff, true_and]) _

/-- Reading a class from the front of some bytes undoes writing it. -/
theorem reads_readFront : Reads readFront write Fits := by
  intro cursor file next
  simp only [readFront, write, bind_eq_ok_iff, uint32_eq_ok_iff, Cursor.passes_append_iff]
  constructor
  · rintro ⟨found, start, hfound, h⟩
    split at h
    · obtain ⟨_, _, hthrow, _⟩ := bind_eq_ok_iff.mp h
      exact absurd hthrow throw_ne_ok
    · rename_i hmagic
      obtain rfl : found = magic := not_not.mp hmagic
      simp only [bind_eq_ok_iff, uint16_eq_ok_iff, Pool.reads_read _ _ _, reads_interfaces _ _ _,
        Member.reads_counted_read _ _ _ _, Attribute.reads_readAll _ _ _, pure_eq_ok_iff,
        Cursor.passes_append_iff] at h
      obtain ⟨minor, a, hminor, major, b, hmajor, pool, c, ⟨hpool, hpoolPass⟩, access, d, haccess,
        thisClass, e, hthis, superClass, f, hsuper, interfaces, g,
        ⟨⟨hinterfaces, _⟩, countEnd, hcount, hindices⟩, fields, i, ⟨hfields, hfieldsPass⟩,
        methods, j, ⟨hmethods, hmethodsPass⟩, attributes, k, ⟨hattributes, hattributesPass⟩,
        rfl, rfl⟩ := h
      exact ⟨⟨hpool, hinterfaces, hfields, hmethods, hattributes⟩,
        j, ⟨i, ⟨g, ⟨f, ⟨e, ⟨d, ⟨c, ⟨b, ⟨a, ⟨start, hfound, hminor⟩, hmajor⟩, hpoolPass⟩, haccess⟩,
        hthis⟩, hsuper⟩, countEnd, hcount, hindices⟩, hfieldsPass⟩, hmethodsPass⟩, hattributesPass⟩
  · rintro ⟨hfits, j, ⟨i, ⟨g, ⟨f, ⟨e, ⟨d, ⟨c, ⟨b, ⟨a, ⟨start, hfound, hminor⟩, hmajor⟩, hpoolPass⟩,
      haccess⟩, hthis⟩, hsuper⟩, countEnd, hcount, hindices⟩, hfieldsPass⟩, hmethodsPass⟩,
      hattributesPass⟩
    refine ⟨magic, start, hfound, ?_⟩
    rw [if_neg (not_not.mpr rfl)]
    simp only [bind_eq_ok_iff, uint16_eq_ok_iff, Pool.reads_read _ _ _, reads_interfaces _ _ _,
      Member.reads_counted_read _ _ _ _, Attribute.reads_readAll _ _ _, pure_eq_ok_iff,
      Cursor.passes_append_iff]
    exact ⟨_, a, hminor, _, b, hmajor, _, c, ⟨hfits.pool, hpoolPass⟩, _, d, haccess, _, e, hthis,
      _, f, hsuper, _, g, ⟨⟨hfits.interfaces, fun _ _ => trivial⟩, countEnd, hcount, hindices⟩,
      _, i, ⟨hfits.fields, hfieldsPass⟩, _, j, ⟨hfits.methods, hmethodsPass⟩, _, next,
      ⟨hfits.attributes, hattributesPass⟩, rfl, rfl⟩

/-- The bytes that are read as a class are the ones that it is written as. -/
theorem read_eq_ok_iff {bytes : Bytes} {file : ClassFile} :
    read bytes = .ok file ↔ file.Fits ∧ bytes = file.write := by
  have hfront (next : Cursor) : readFront (Cursor.start bytes) = .ok (file, next) ↔
      file.Fits ∧ bytes = file.write ++ next.rest ∧ next.offset = file.write.length := by
    rw [reads_readFront _ _ _, Cursor.start_passes_iff]
  unfold read
  constructor
  · intro h
    split at h
    · cases h
    · rename_i file' offset hread
      cases h
      obtain ⟨hfits, hbytes, _⟩ := (hfront _).mp hread
      exact ⟨hfits, by simpa using hbytes⟩
    · cases h
  · rintro ⟨hfits, hbytes⟩
    rw [(hfront ⟨file.write.length, []⟩).mpr ⟨hfits, by simpa using hbytes, rfl⟩]

/-- A class that is read is written back byte for byte, so no two byte strings are read as one
class. -/
theorem write_eq_of_read {bytes : Bytes} {file : ClassFile} (h : read bytes = .ok file) :
    file.write = bytes ∧ ∀ other, read other = .ok file → other = bytes := by
  obtain ⟨_, rfl⟩ := read_eq_ok_iff.mp h
  exact ⟨rfl, fun other hother => (read_eq_ok_iff.mp hother).2⟩

/-- A class with an entry of two slots and two string constants for one text. -/
def specimen : ClassFile :=
  { minor := 0, major := 52
    pool := ⟨#[none, some (.utf8 [65]), some (.classInfo 1), some (.utf8 [109]),
      some (.utf8 [40, 41, 86]), some (.utf8 [67, 111, 100, 101]), some (.utf8 [72, 105]),
      some (.string 6), some (.long 7), none, some (.string 6), some (.utf8 [66, 121, 101]),
      some (.string 11)]⟩
    access := 0x21, thisClass := 2, superClass := 0, interfaces := [2], fields := []
    methods :=
      [⟨0, 3, 4, [⟨5, [0, 1, 0, 1, 0, 0, 0, 6, 19, 0, 10, 18, 7, 177, 0, 0, 0, 0]⟩]⟩,
       ⟨0, 1, 4, [⟨5, [0, 1, 0, 1, 0, 0, 0, 5, 18, 7, 18, 12, 177, 0, 0, 0, 0]⟩]⟩]
    attributes := [] }

def specimenBytes : Bytes :=
  [202, 254, 186, 190, 0, 0, 0, 52, 0, 13, 1, 0, 1, 65, 7, 0, 1, 1, 0, 1, 109, 1, 0, 3, 40, 41, 86,
   1, 0, 4, 67, 111, 100, 101, 1, 0, 2, 72, 105, 8, 0, 6, 5, 0, 0, 0, 0, 0, 0, 0, 7, 8, 0, 6, 1, 0,
   3, 66, 121, 101, 8, 0, 11, 0, 33, 0, 2, 0, 0, 0, 1, 0, 2, 0, 0, 0, 2, 0, 0, 0, 3, 0, 4, 0, 1, 0,
   5, 0, 0, 0, 18, 0, 1, 0, 1, 0, 0, 0, 6, 19, 0, 10, 18, 7, 177, 0, 0, 0, 0, 0, 0, 0, 1, 0, 4, 0,
   1, 0, 5, 0, 0, 0, 17, 0, 1, 0, 1, 0, 0, 0, 5, 18, 7, 18, 12, 177, 0, 0, 0, 0, 0, 0]

theorem read_specimenBytes : read specimenBytes = .ok specimen := by
  decide +kernel

theorem write_specimen : read specimenBytes = .ok specimen ∧ specimen.write = specimenBytes ∧
    ∀ other, read other = .ok specimen → other = specimenBytes :=
  ⟨read_specimenBytes, write_eq_of_read read_specimenBytes⟩

end ClassFile

end JarText
