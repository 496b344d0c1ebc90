import IgaArchive.Directory.Range
import IgaArchive.Proofs.Directory.Layout

/-!
How far a container has to reach for its directory: to the end of the directory itself and of every
payload. The range check accepts just the lengths from there on, and where payloads follow each other the
extent is the end of the last one.
-/

namespace IgaArchive.Directory

def ending (directory : Directory) (entry : Entry) : Int :=
  (directory.start entry).toInt + entry.size.toNat

/-- The end of the directory or of the payload that reaches furthest. -/
def extent (directory : Directory) : Int :=
  directory.entries.foldr (fun entry reach => max (directory.ending entry) reach)
    directory.dataStart.toInt

theorem extent_le_iff (directory : Directory) (length : Int) :
    directory.extent ≤ length ↔
      directory.dataStart.toInt ≤ length ∧
        ∀ entry ∈ directory.entries, directory.ending entry ≤ length := by
  rw [extent]
  induction directory.entries with
  | nil => simp
  | cons entry entries ih =>
      rw [List.foldr_cons, Int.max_le, ih, List.forall_mem_cons]
      constructor
      · rintro ⟨here, begins, later⟩
        exact ⟨begins, here, later⟩
      · rintro ⟨begins, here, later⟩
        exact ⟨here, begins, later⟩

section Positions

variable (directory : Directory) (start : Nat)
variable (begins : directory.dataStart = Int64.ofNat start) (near : start + 0x200000000 ≤ 0x8000000000000000)
include begins near

theorem dataStart_toInt : directory.dataStart.toInt = start := by
  rw [begins, Int64.toInt_ofNat_of_lt (by omega)]

theorem start_toInt (entry : Entry) : (directory.start entry).toInt = start + entry.offset.toNat := by
  have offset := entry.offset.toNat_lt
  rw [Directory.start, begins, ← Int64.ofNat_add, Int64.toInt_ofNat_of_lt (by omega)]
  omega

theorem ending_eq (entry : Entry) :
    directory.ending entry = start + entry.offset.toNat + entry.size.toNat := by
  rw [ending, start_toInt directory start begins near]

theorem start_add_size_toInt (entry : Entry) :
    (directory.start entry + Int64.ofNat entry.size.toNat).toInt = directory.ending entry := by
  have offset := entry.offset.toNat_lt
  have size := entry.size.toNat_lt
  rw [ending_eq directory start begins near, Directory.start, begins, ← Int64.ofNat_add, ← Int64.ofNat_add,
    Int64.toInt_ofNat_of_lt (by omega)]
  omega

/-- No position wraps around, so the range check compares the true ends. -/
theorem fits_iff (fileSize : Int64) (entry : Entry) :
    directory.fits fileSize entry = true ↔ directory.ending entry ≤ fileSize.toInt := by
  rw [fits, decide_eq_true_iff, Int64.le_iff_toInt_le, start_add_size_toInt directory start begins near]

theorem resolve_eq_ok_iff_toInt (fileSize : Int64) :
    directory.resolve fileSize = .ok () ↔
      ∀ entry ∈ directory.entries, directory.ending entry ≤ fileSize.toInt := by
  have fitting := fits_iff directory start begins near fileSize
  rw [resolve]
  split
  · rename_i entry found
    obtain ⟨late, front, back, shape, _⟩ := List.find?_eq_some_iff_append.mp found
    constructor
    · exact nofun
    · intro inside
      have member : entry ∈ directory.entries := by simp [shape]
      have fine := (fitting entry).mpr (inside entry member)
      simp [fine] at late
  · rename_i missing
    refine ⟨fun _ entry member => (fitting entry).mp ?_, fun _ => rfl⟩
    simpa using List.find?_eq_none.mp missing entry member

theorem resolve_eq_error_toInt (fileSize : Int64) (error : OutOfRange)
    (refused : directory.resolve fileSize = .error error) :
    ∃ front entry back, directory.entries = front ++ entry :: back ∧
      (∀ earlier ∈ front, directory.ending earlier ≤ fileSize.toInt) ∧
      fileSize.toInt < directory.ending entry ∧
      error = ⟨entry.name, directory.start entry, entry.size, fileSize⟩ := by
  have fitting := fits_iff directory start begins near fileSize
  rw [resolve] at refused
  split at refused
  · rename_i entry found
    cases refused
    obtain ⟨late, front, back, shape, earlier⟩ := List.find?_eq_some_iff_append.mp found
    refine ⟨front, entry, back, shape, ?_, ?_, rfl⟩
    · intro other inside
      rw [← fitting]
      simpa using earlier other inside
    · apply Int.not_le.mp
      rw [← fitting]
      simpa using late
  · cases refused

theorem resolve_eq_ok_iff (length : Nat) (short : length < 0x8000000000000000) :
    directory.resolve (Int64.ofNat length) = .ok () ↔
      ∀ entry ∈ directory.entries, directory.ending entry ≤ length := by
  rw [resolve_eq_ok_iff_toInt directory start begins near, Int64.toInt_ofNat_of_lt (by omega)]

/-- The first entry in table order that ends behind a length. -/
structure FirstBeyond (length : Nat) (entry : Entry) : Prop where
  beyond : length < directory.ending entry
  first : ∃ front back, directory.entries = front ++ entry :: back ∧
    ∀ earlier ∈ front, directory.ending earlier ≤ length

theorem resolve_eq_error (length : Nat) (short : length < 0x8000000000000000) (error : OutOfRange)
    (refused : directory.resolve (Int64.ofNat length) = .error error) :
    ∃ entry, directory.FirstBeyond length entry ∧
      error = ⟨entry.name, directory.start entry, entry.size, Int64.ofNat length⟩ := by
  obtain ⟨front, entry, back, shape, earlier, beyond, same⟩ :=
    resolve_eq_error_toInt directory start begins near _ error refused
  rw [Int64.toInt_ofNat_of_lt (by omega)] at earlier beyond
  exact ⟨entry, ⟨beyond, front, back, shape, earlier⟩, same⟩

end Positions

/-- Payloads that follow each other without gaps from an offset on. -/
def Follows (offset : Nat) : List Entry → Prop
  | [] => True
  | entry :: entries => entry.offset.toNat = offset ∧ Follows (offset + entry.size.toNat) entries

def payloadTotal : List Entry → Nat
  | [] => 0
  | entry :: entries => entry.size.toNat + payloadTotal entries

theorem payloadTotal_cons (entry : Entry) (entries : List Entry) :
    payloadTotal (entry :: entries) = entry.size.toNat + payloadTotal entries := rfl

theorem consecutive_follows (nameOffset offset : Nat) (members : List (Bytes × Nat))
    (fit : FieldsFit nameOffset offset members) :
    Follows offset (consecutive nameOffset offset members) := by
  induction members generalizing nameOffset offset with
  | nil => trivial
  | cons member members ih =>
      obtain ⟨_, offsetFits, sizeFits, later⟩ := fit
      simp only [maxField] at offsetFits sizeFits
      have offsetField : offset.toUInt32.toNat = offset := by
        simp
        omega
      have sizeField : member.2.toUInt32.toNat = member.2 := by
        simp
        omega
      refine ⟨offsetField, ?_⟩
      simp only [sizeField]
      exact ih _ _ later

theorem Follows.reach (offset : Nat) (entries : List Entry) (follows : Follows offset entries) :
    (∀ entry ∈ entries,
      entry.offset.toNat + entry.size.toNat ≤ offset + payloadTotal entries) ∧
    (entries ≠ [] → ∃ entry ∈ entries,
      entry.offset.toNat + entry.size.toNat = offset + payloadTotal entries) := by
  induction entries generalizing offset with
  | nil => exact ⟨nofun, fun none => absurd rfl none⟩
  | cons entry entries ih =>
      obtain ⟨here, later⟩ := follows
      obtain ⟨within, reached⟩ := ih _ later
      rw [payloadTotal_cons]
      constructor
      · rw [List.forall_mem_cons]
        refine ⟨by omega, ?_⟩
        intro other inside
        have bound := within other inside
        omega
      · intro _
        cases entries with
        | nil => exact ⟨entry, by simp, by simp [payloadTotal]; omega⟩
        | cons next rest =>
            obtain ⟨last, inside, ends⟩ := reached (by simp)
            exact ⟨last, List.mem_cons_of_mem _ inside, by omega⟩

theorem Follows.payloadTotal_lt (entries : List Entry) (follows : Follows 0 entries) :
    payloadTotal entries < 0x200000000 := by
  cases entries with
  | nil => simp [payloadTotal]
  | cons entry entries =>
      obtain ⟨last, _, ends⟩ := (Follows.reach 0 _ follows).2 (by simp)
      have offset := last.offset.toNat_lt
      have size := last.size.toNat_lt
      omega

theorem foldl_sizes (entries : List Entry) (total : UInt64)
    (room : total.toNat + payloadTotal entries < 0x10000000000000000) :
    (entries.foldl (fun total entry => total + entry.size.toUInt64) total).toNat =
      total.toNat + payloadTotal entries := by
  induction entries generalizing total with
  | nil => simp [payloadTotal]
  | cons entry entries ih =>
      rw [payloadTotal_cons] at room ⊢
      have next : (total + entry.size.toUInt64).toNat = total.toNat + entry.size.toNat := by
        rw [UInt64.toNat_add, UInt32.toNat_toUInt64]
        omega
      rw [List.foldl_cons, ih _ (by omega), next]
      omega

theorem payloadSize_toNat (directory : Directory) (follows : Follows 0 directory.entries) :
    directory.payloadSize.toNat = payloadTotal directory.entries := by
  have small := Follows.payloadTotal_lt _ follows
  rw [payloadSize, foldl_sizes _ _ (by simp; omega)]
  simp

theorem extent_of_follows (directory : Directory) (start : Nat)
    (begins : directory.dataStart = Int64.ofNat start) (near : start + 0x200000000 ≤ 0x8000000000000000)
    (follows : Follows 0 directory.entries) :
    directory.extent = start + directory.payloadSize.toNat := by
  obtain ⟨within, reached⟩ := Follows.reach 0 _ follows
  have endings := ending_eq directory start begins near
  have position := dataStart_toInt directory start begins near
  have least := (extent_le_iff directory directory.extent).mp (Int.le_refl _)
  rw [payloadSize_toNat directory follows]
  apply Int.le_antisymm
  · rw [extent_le_iff]
    refine ⟨by omega, ?_⟩
    intro entry inside
    have bound := within entry inside
    rw [endings]
    omega
  · cases shape : directory.entries with
    | nil =>
        simp only [payloadTotal]
        omega
    | cons entry entries =>
        rw [shape] at reached least
        obtain ⟨last, inside, ends⟩ := reached (by simp)
        have bound := least.2 last inside
        rw [endings] at bound
        omega

theorem laidOut_follows (members : List (Bytes × Nat)) (directory : Directory) (encoded : Bytes)
    (laid : LaidOut members directory encoded) : Follows 0 directory.entries := by
  rw [laid.entries]
  exact consecutive_follows 0 0 members laid.fields

end IgaArchive.Directory
