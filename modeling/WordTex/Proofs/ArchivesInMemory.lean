import Mathlib.Data.List.DropRight
import Mathlib.Data.List.Nodup
import Mathlib.Data.Option.Basic
import WordTex.Archive
import WordTex.Proofs.Dictionaries

/-! # Archives and packages in memory

What an archive holds can be put into memory, one member after the other. In memory a part has no slashes
in front of its name, whereas an archive looks for the names that are stored in it. So the two answer
differently where a stored name begins with a slash. -/
namespace WordTex

theorem partName_partName (path : String) : partName (partName path) = partName path := by
  rw [partName, partName, String.toList_ofList, List.dropWhile_idempotent]

/-- Two packages answer alike for a path. -/
def PartSource.AgreesAt (source other : PartSource) (path : String) : Prop :=
  source.hasPart path = other.hasPart path ∧ source.readText path = other.readText path

namespace Archive

/-- Members have different stored names. -/
def HaveDifferentNames (members : List Member) : Prop := (members.map (·.storedName.data)).Nodup

theorem haveDifferentNames_nil : HaveDifferentNames [] := List.nodup_nil

theorem haveDifferentNames_addMember {members : List Member} (h : HaveDifferentNames members)
    (m : Member) : HaveDifferentNames (addMember members m) := by
  rw [addMember]
  split
  case isTrue =>
    have hsame : (members.map fun other => if other.isStoredAs m.storedName then m else other).map
        (·.storedName.data) = members.map (·.storedName.data) := by
      rw [List.map_map]
      refine List.map_congr_left fun other _ => ?_
      rw [Function.comp_apply]
      split
      case isTrue hother => exact (of_decide_eq_true hother).symm
      case isFalse => rfl
    rwa [HaveDifferentNames, hsame]
  case isFalse hnew =>
    rw [HaveDifferentNames, List.map_append, List.nodup_append]
    refine ⟨h, List.nodup_singleton _, fun name hname other hother heq => hnew ?_⟩
    obtain ⟨m', hm', rfl⟩ := List.mem_map.mp hname
    exact List.any_eq_true.mpr ⟨m', hm', decide_eq_true (heq.trans (List.mem_singleton.mp hother))⟩

theorem haveDifferentNames_of_members? {bytes : ByteArray} {start count offset : Nat}
    {members all : List Member} (h : HaveDifferentNames members)
    (hall : members? bytes start count offset members = some all) : HaveDifferentNames all := by
  induction count generalizing offset members with
  | zero => exact Option.some.inj hall ▸ h
  | succ count ih =>
    rw [members?, Option.bind_eq_bind, Option.bind_eq_some_iff] at hall
    obtain ⟨⟨m, next⟩, -, hall⟩ := hall
    exact ih (haveDifferentNames_addMember h m) hall

theorem exists_members?_of_ofEndRecord? {bytes : ByteArray} {offset : Nat} {a : Archive}
    (h : ofEndRecord? bytes offset = some a) :
    ∃ start count first, members? bytes start count first [] = some a.members := by
  rw [ofEndRecord?, Option.bind_eq_bind, Option.bind_eq_some_iff] at h
  obtain ⟨place, -, h⟩ := h
  obtain ⟨members, hmembers, ha⟩ := Option.bind_eq_some_iff.mp h
  exact ⟨_, _, _, hmembers.trans (Option.some.inj ha ▸ rfl)⟩

theorem exists_of_searchDown {α : Type} {f : Nat → Option α} {n : Nat} {v : α}
    (h : searchDown f n = some v) : ∃ k, f k = some v := by
  induction n with
  | zero => exact ⟨0, h⟩
  | succ n ih =>
    rw [searchDown] at h
    split at h
    case h_1 w hw => exact ⟨n + 1, hw.trans h⟩
    case h_2 => exact ih h

variable {bytes : ByteArray} {a : Archive}

theorem haveDifferentNames_of_ofBytes (h : ofBytes bytes = .ok a) : HaveDifferentNames a.members := by
  rw [ofBytes] at h
  split at h
  case h_1 found hfound =>
    obtain ⟨offset, hoffset⟩ := exists_of_searchDown hfound
    obtain ⟨_, _, _, hmembers⟩ := exists_members?_of_ofEndRecord? hoffset
    exact Except.ok.inj h ▸ haveDifferentNames_of_members? haveDifferentNames_nil hmembers
  case h_2 => cases h

/-- Every member is stored under the name that it is shown with. -/
def ShowsStoredNames (a : Archive) : Prop := ∀ m ∈ a.members, m.isStoredAs m.name.toUTF8

theorem ShowsStoredNames.isStoredAs_iff (h : a.ShowsStoredNames) {m : Member} (hm : m ∈ a.members)
    (part : String) : m.isStoredAs part.toUTF8 = true ↔ m.name = part := by
  have hname := of_decide_eq_true (h m hm)
  rw [Member.isStoredAs, decide_eq_true_iff, hname, ← ByteArray.ext_iff]
  exact String.toByteArray_inj

theorem ShowsStoredNames.eq_of_name_eq (h : a.ShowsStoredNames) (hdiff : HaveDifferentNames a.members)
    {m m' : Member} (hm : m ∈ a.members) (hm' : m' ∈ a.members) (hname : m.name = m'.name) :
    m = m' := by
  have hstored := of_decide_eq_true ((h.isStoredAs_iff hm m'.name).mpr hname)
  have hstored' := of_decide_eq_true (h m' hm')
  exact List.inj_on_of_nodup_map hdiff hm hm' (hstored.trans hstored'.symm)

/-- The package with what is read of each member under the member's name, in the order of the archive. -/
def inMemory (a : Archive) (read : Member → Except PackageError ByteArray) :
    Except PackageError MemoryPackage :=
  a.members.foldlM (fun p m => return p.insert m.name (← read m)) .empty

/-- The member that was put into memory last of those whose names name the part at a path. -/
def lastNaming? (a : Archive) (path : String) : Option Member :=
  a.members.reverse.find? fun m => partName m.name == partName path

theorem lastNaming?_eq_some {path : String} {m : Member} (h : a.lastNaming? path = some m) :
    m ∈ a.members ∧ partName m.name = partName path := by
  have hname := List.find?_some h
  exact ⟨List.mem_reverse.mp (List.mem_of_find?_eq_some h), beq_iff_eq.mp hname⟩

theorem lastNaming?_eq_none_iff {path : String} :
    a.lastNaming? path = none ↔ ∀ m ∈ a.members, partName m.name ≠ partName path := by
  simp [lastNaming?]

variable {read : Member → Except PackageError ByteArray} {p : MemoryPackage}

theorem get?_of_foldlM {members : List Member} {before : MemoryPackage}
    (h : members.foldlM (fun p m => return p.insert m.name (← read m)) before = .ok p) (part : String) :
    match members.reverse.find? (fun m => partName m.name == part) with
    | some m => ∃ data, read m = .ok data ∧ Dictionary.get? part p.parts = some data
    | none => Dictionary.get? part p.parts = Dictionary.get? part before.parts := by
  induction members generalizing before with
  | nil => exact Except.ok.inj h ▸ rfl
  | cons m members ih =>
    rw [List.foldlM_cons] at h
    cases hread : read m with
    | error e => rw [hread] at h; cases h
    | ok data =>
      rw [hread] at h
      have hrest := ih h
      rw [List.reverse_cons, List.find?_append]
      cases hfind : members.reverse.find? (fun m => partName m.name == part) with
      | some m' => rwa [hfind] at hrest
      | none =>
        rw [hfind] at hrest
        rw [MemoryPackage.insert, Dictionary.get?_insert] at hrest
        by_cases hpart : partName m.name = part
        · rw [if_pos hpart.symm] at hrest
          simpa [hpart] using ⟨data, hread, hrest⟩
        · rw [if_neg (Ne.symm hpart)] at hrest
          simpa [hpart] using hrest

/-- Of the members that name a part the last one is in memory. -/
theorem get?_of_lastNaming? (hp : a.inMemory read = .ok p) {path : String} {m : Member}
    (hm : a.lastNaming? path = some m) :
    ∃ data, read m = .ok data ∧ Dictionary.get? (partName path) p.parts = some data := by
  have hget := get?_of_foldlM hp (partName path)
  rw [← lastNaming?, hm] at hget
  exact hget

theorem get?_of_lastNaming?_eq_none (hp : a.inMemory read = .ok p) {path : String}
    (hm : a.lastNaming? path = none) : Dictionary.get? (partName path) p.parts = none := by
  have hget := get?_of_foldlM hp (partName path)
  rw [← lastNaming?, hm] at hget
  exact hget

/-- Every member is in memory under its name. -/
theorem hasPart_of_inMemory (hp : a.inMemory read = .ok p) {name : String}
    (hname : name ∈ a.memberNames) : p.hasPart name = true := by
  obtain ⟨m, hm, rfl⟩ := List.mem_map.mp hname
  cases hlast : a.lastNaming? m.name with
  | none => exact absurd rfl (lastNaming?_eq_none_iff.mp hlast m hm)
  | some last =>
    obtain ⟨data, -, hget⟩ := get?_of_lastNaming? hp hlast
    rw [MemoryPackage.hasPart, hget, Option.isSome_some]

variable {path : String}

theorem hasPart_iff : a.hasPart path = true ↔ ∃ m ∈ a.members, m.name = partName path := by
  simp [hasPart]

/-- What an archive answers for a part depends on the name of the part. -/
theorem readBytes_congr {other : String} (h : partName path = partName other) :
    a.readBytes path = a.readBytes other := by
  rw [readBytes, readBytes, h]

/-- The text of a member that is read for a path. -/
def memberText (a : Archive) (path : String) (m : Member) : Except PackageError String := do
  textOfPart path (← a.readMember m)

theorem readText_of_name (hnames : a.ShowsStoredNames) (hdiff : HaveDifferentNames a.members)
    {m : Member} (hm : m ∈ a.members) (hname : m.name = partName path) :
    a.readText path = a.memberText path m := by
  have hstored := (hnames.isStoredAs_iff hm (partName path)).mpr hname
  rw [readText, readBytes, memberText]
  cases hfind : a.members.find? (·.isStoredAs (partName path).toUTF8) with
  | none => exact absurd hstored (List.find?_eq_none.mp hfind m hm)
  | some m' =>
    have hm' := List.mem_of_find?_eq_some hfind
    have hstored' := List.find?_some hfind
    have hname' := (hnames.isStoredAs_iff hm' (partName path)).mp hstored'
    rw [hnames.eq_of_name_eq hdiff hm' hm (hname'.trans hname.symm)]

theorem hasPart_of_readBytes (hnames : a.ShowsStoredNames) {data : ByteArray}
    (h : a.readBytes path = .ok data) : a.hasPart path = true := by
  rw [readBytes] at h
  split at h
  case h_1 m hm =>
    have hmem := List.mem_of_find?_eq_some hm
    have hstored := List.find?_some hm
    exact hasPart_iff.mpr ⟨m, hmem, (hnames.isStoredAs_iff hmem (partName path)).mp hstored⟩
  case h_2 => cases h

theorem agreesAt_of_lastNaming?_eq_none (hnames : a.ShowsStoredNames) (hp : a.inMemory read = .ok p)
    (hm : a.lastNaming? path = none) : a.source.AgreesAt p.source path := by
  have hget := get?_of_lastNaming?_eq_none hp hm
  have hne : ∀ m ∈ a.members, m.name ≠ partName path := fun m hmem hname =>
    lastNaming?_eq_none_iff.mp hm m hmem (by rw [hname, partName_partName])
  have hfind : a.members.find? (·.isStoredAs (partName path).toUTF8) = none :=
    List.find?_eq_none.mpr fun m hmem h => hne m hmem ((hnames.isStoredAs_iff hmem _).mp h)
  constructor
  · change a.hasPart path = p.hasPart path
    rw [MemoryPackage.hasPart, hget, Option.isSome_none, ← Bool.not_eq_true, hasPart_iff]
    exact fun ⟨m, hmem, hname⟩ => hne m hmem hname
  · change a.readText path = p.readText path
    rw [readText, readBytes, hfind, MemoryPackage.readText, hget]
    rfl

/-- An archive and its members' data in memory agree for a path if and only if the archive has the member
that was put into memory last for this part, or one with the same text, under the very name of the part. -/
theorem agreesAt_iff (hnames : a.ShowsStoredNames) (hdiff : HaveDifferentNames a.members)
    (hp : a.inMemory a.readMember = .ok p) (path : String) :
    a.source.AgreesAt p.source path ↔ ∀ m, a.lastNaming? path = some m →
      ∃ m' ∈ a.members, m'.name = partName path ∧ a.memberText path m' = a.memberText path m := by
  cases hlast : a.lastNaming? path with
  | none => exact iff_of_true (agreesAt_of_lastNaming?_eq_none hnames hp hlast) nofun
  | some m =>
    obtain ⟨data, hread, hget⟩ := get?_of_lastNaming? hp hlast
    have hpart : p.hasPart path = true := by rw [MemoryPackage.hasPart, hget]; rfl
    have htext : p.readText path = a.memberText path m := by
      rw [MemoryPackage.readText, hget, memberText, hread]
      rfl
    constructor
    · rintro ⟨hhas, hsame⟩ _ ⟨⟩
      obtain ⟨m', hm', hname⟩ := hasPart_iff.mp (hhas.trans hpart)
      refine ⟨m', hm', hname, ?_⟩
      rw [← readText_of_name hnames hdiff hm' hname, ← htext]
      exact hsame
    · intro h
      obtain ⟨m', hm', hname, hsame⟩ := h m rfl
      refine ⟨(hasPart_iff.mpr ⟨m', hm', hname⟩).trans hpart.symm, ?_⟩
      exact (readText_of_name hnames hdiff hm' hname).trans (hsame.trans htext.symm)

/-- What an archive finds under the names of its members is in memory what the archive finds. -/
theorem agreesAt_of_readBytes (hnames : a.ShowsStoredNames)
    (hp : a.inMemory (fun m => a.readBytes m.name) = .ok p) (path : String) :
    a.source.AgreesAt p.source path := by
  cases hlast : a.lastNaming? path with
  | none => exact agreesAt_of_lastNaming?_eq_none hnames hp hlast
  | some m =>
    obtain ⟨data, hread, hget⟩ := get?_of_lastNaming? hp hlast
    rw [readBytes_congr (lastNaming?_eq_some hlast).2] at hread
    constructor
    · change a.hasPart path = p.hasPart path
      rw [hasPart_of_readBytes hnames hread, MemoryPackage.hasPart, hget, Option.isSome_some]
    · change a.readText path = p.readText path
      rw [readText, hread, MemoryPackage.readText, hget]
      rfl

/-- The members in memory under their names: the archive agrees with them for a path unless it lacks, under
the very name of the part, a member with the text of the last one that names it. A member exists in the
archive if one has its name without the slashes in front. When the archive itself is asked for each
member by its name, both agree for every path, and every member exists. -/
theorem agreesAt_of_ofBytes (h : ofBytes bytes = .ok a) (hnames : a.ShowsStoredNames) :
    (∀ p, a.inMemory a.readMember = .ok p →
      (∀ path, a.source.AgreesAt p.source path ↔ ∀ m, a.lastNaming? path = some m →
        ∃ m' ∈ a.members, m'.name = partName path ∧ a.memberText path m' = a.memberText path m) ∧
      ∀ name ∈ a.memberNames,
        p.hasPart name = true ∧ (a.hasPart name = true ↔ partName name ∈ a.memberNames)) ∧
    ∀ p, a.inMemory (fun m => a.readBytes m.name) = .ok p →
      (∀ path, a.source.AgreesAt p.source path) ∧ ∀ name ∈ a.memberNames, a.hasPart name = true := by
  have hdiff := haveDifferentNames_of_ofBytes h
  refine ⟨fun p hp => ⟨agreesAt_iff hnames hdiff hp, fun name hname => ⟨?_, ?_⟩⟩,
    fun p hp => ⟨agreesAt_of_readBytes hnames hp, fun name hname => ?_⟩⟩
  · exact hasPart_of_inMemory hp hname
  · simp [hasPart_iff, memberNames]
  · exact (agreesAt_of_readBytes hnames hp name).1.trans (hasPart_of_inMemory hp hname)

/-- An archive with the members `a` and `/b`. -/
def slashedBytes : ByteArray := ⟨#[
  80, 75, 3, 4, 20, 0, 0, 8, 0, 0, 0, 0, 33, 0, 131, 22, 220, 140, 1, 0, 0, 0, 1, 0, 0, 0, 1, 0, 0,
  0, 97, 120, 80, 75, 3, 4, 20, 0, 0, 8, 0, 0, 0, 0, 33, 0, 21, 38, 219, 251, 1, 0, 0, 0, 1, 0, 0,
  0, 2, 0, 0, 0, 47, 98, 121, 80, 75, 1, 2, 20, 3, 20, 0, 0, 8, 0, 0, 0, 0, 33, 0, 131, 22, 220,
  140, 1, 0, 0, 0, 1, 0, 0, 0, 1, 0, 0, 0, 0, 0, 0, 0, 0, 0, 0, 0, 128, 1, 0, 0, 0, 0, 97, 80, 75,
  1, 2, 20, 3, 20, 0, 0, 8, 0, 0, 0, 0, 33, 0, 21, 38, 219, 251, 1, 0, 0, 0, 1, 0, 0, 0, 2, 0, 0, 0,
  0, 0, 0, 0, 0, 0, 0, 0, 128, 1, 32, 0, 0, 0, 47, 98, 80, 75, 5, 6, 0, 0, 0, 0, 2, 0, 2, 0, 95, 0,
  0, 0, 65, 0, 0, 0, 0, 0]⟩

/-- What is computed of an archive shows that it opens. -/
theorem exists_archive_of_map {β : Type} {f : Archive → β} {b : β}
    (h : (ofBytes bytes).toOption.map f = some b) : ∃ a, ofBytes bytes = .ok a ∧ f a = b := by
  cases ha : ofBytes bytes with
  | error e => rw [ha] at h; cases h
  | ok a => rw [ha] at h; exact ⟨a, rfl, Option.some.inj h⟩

theorem exists_slashedArchive : ∃ a, ofBytes slashedBytes = .ok a ∧
    (a.memberNames, a.members.all fun m => m.isStoredAs m.name.toUTF8,
      (a.inMemory a.readMember).toOption.map MemoryPackage.partNames,
      (a.lastNaming? "a").map Member.name, (a.lastNaming? "b").map Member.name) =
    (["a", "/b"], true, some ["a", "b"], some "a", some "/b") :=
  exists_archive_of_map (by decide +kernel)

theorem exists_slashedArchive_inMemory : ∃ a p, ofBytes slashedBytes = .ok a ∧ a.ShowsStoredNames ∧
    a.inMemory a.readMember = .ok p ∧ a.memberNames = ["a", "/b"] ∧
    (a.lastNaming? "a").map Member.name = some "a" ∧
    (a.lastNaming? "b").map Member.name = some "/b" := by
  obtain ⟨a, ha, hfacts⟩ := exists_slashedArchive
  obtain ⟨hnames, hfacts⟩ := Prod.mk.inj hfacts
  obtain ⟨hstored, hfacts⟩ := Prod.mk.inj hfacts
  obtain ⟨hmemory, hfacts⟩ := Prod.mk.inj hfacts
  obtain ⟨hplain, hslashed⟩ := Prod.mk.inj hfacts
  cases hp : a.inMemory a.readMember with
  | error e => rw [hp] at hmemory; cases hmemory
  | ok p => exact ⟨a, p, ha, List.all_eq_true.mp hstored, hp, hnames, hplain, hslashed⟩

theorem agreesAt_of_slashedBytes : ∃ a p, ofBytes slashedBytes = .ok a ∧ a.ShowsStoredNames ∧
    a.inMemory a.readMember = .ok p ∧ a.source.AgreesAt p.source "a" ∧
    ¬a.source.AgreesAt p.source "b" := by
  obtain ⟨a, p, ha, hstored, hp, hnames, hplain, hslashed⟩ := exists_slashedArchive_inMemory
  have hagrees := ((agreesAt_of_ofBytes ha hstored).1 p hp).1
  have hpart : partName "a" = "a" := by decide +kernel
  have hno : partName "b" ∉ a.memberNames := by rw [hnames]; decide +kernel
  refine ⟨a, p, ha, hstored, hp, (hagrees "a").mpr fun m hm => ?_, fun h => ?_⟩
  · rw [hm] at hplain
    exact ⟨m, (lastNaming?_eq_some hm).1, (Option.some.inj hplain).trans hpart.symm, rfl⟩
  · obtain ⟨m, hm, -⟩ := Option.map_eq_some_iff.mp hslashed
    obtain ⟨m', hm', hname, -⟩ := (hagrees "b").mp h m hm
    exact hno (List.mem_map.mpr ⟨m', hm', hname⟩)

/-- A member whose stored name begins with a slash is in memory, but the archive does not find it. -/
theorem not_hasPart_of_slashedBytes : ∃ a p, ofBytes slashedBytes = .ok a ∧ a.ShowsStoredNames ∧
    a.inMemory a.readMember = .ok p ∧ "/b" ∈ a.memberNames ∧ a.hasPart "/b" = false ∧
    p.hasPart "/b" = true := by
  obtain ⟨a, p, ha, hstored, hp, hnames, -, -⟩ := exists_slashedArchive_inMemory
  have hmember : "/b" ∈ a.memberNames := by rw [hnames]; decide
  have hno : partName "/b" ∉ a.memberNames := by rw [hnames]; decide +kernel
  refine ⟨a, p, ha, hstored, hp, hmember, ?_, hasPart_of_inMemory hp hmember⟩
  rw [← Bool.not_eq_true, hasPart_iff]
  exact fun ⟨m, hm, hname⟩ => hno (List.mem_map.mpr ⟨m, hm, hname⟩)

end Archive

end WordTex
