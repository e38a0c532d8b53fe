import Abix.Model.ABI

/-! The static metadata loader: an image of records is checked and then handed on as a whole. -/
namespace Abix.Model
variable {Metadata World : Type}

structure BootRecord (Metadata : Type) where
  typeHash : UInt64
  size : UInt32
  align : UInt32
  metadata : Option Metadata

/-- The consumer with its context is a function of the world that the context is part of. -/
structure BootImage (Metadata World : Type) where
  records : Counted (BootRecord Metadata)
  formatVersion : UInt32
  byteOrder : UInt32
  consume : Option (List (BootRecord Metadata) → World → World)

inductive BootStatus where
  | ok
  | invalidImage
  | unsupportedFormat
  | unsupportedByteOrder
  deriving DecidableEq, Repr

def bootstrapFormatVersion : UInt32 := 1

def bootstrapLittleEndian : UInt32 := 1

def validRecord (record : BootRecord Metadata) : Bool :=
  record.typeHash ≠ 0 ∧ record.size ≠ 0 ∧ record.align ≠ 0 ∧ record.metadata.isSome

def abixBootstrap (image : BootImage Metadata World) (w : World) : World × BootStatus :=
  if image.formatVersion ≠ bootstrapFormatVersion then (w, .unsupportedFormat)
  else if image.byteOrder ≠ bootstrapLittleEndian then (w, .unsupportedByteOrder)
  else if image.records.isDangling then (w, .invalidImage)
  else
    match image.consume with
    | none => (w, .invalidImage)
    | some consume =>
      if ¬ ∀ record ∈ image.records.items, validRecord record then (w, .invalidImage)
      else (consume image.records.items w, .ok)

/-- The image passes the checks of the loader, which know nothing of the consumer. -/
structure BootImage.Accepted (image : BootImage Metadata World) : Prop where
  format : image.formatVersion = bootstrapFormatVersion
  order : image.byteOrder = bootstrapLittleEndian
  present : image.records.isDangling = false
  valid : ∀ record ∈ image.records.items, validRecord record = true

variable {image : BootImage Metadata World} {w : World} {consume : List (BootRecord Metadata) → World → World}

theorem abixBootstrap_of_accepted (hconsume : image.consume = some consume) (h : image.Accepted) :
    abixBootstrap image w = (consume image.records.items w, .ok) := by
  obtain ⟨hformat, horder, hpresent, hvalid⟩ := h
  rw [abixBootstrap, if_neg (not_not.mpr hformat), if_neg (not_not.mpr horder), hpresent, if_neg Bool.false_ne_true,
    hconsume]
  exact if_neg (not_not.mpr hvalid)

/-- An image that is not accepted changes nothing. -/
theorem abixBootstrap_of_not_accepted (h : ¬ image.Accepted) :
    (abixBootstrap image w).1 = w ∧ (abixBootstrap image w).2 ≠ .ok := by
  rw [abixBootstrap]
  split
  · exact ⟨rfl, nofun⟩
  rename_i hformat
  split
  · exact ⟨rfl, nofun⟩
  rename_i horder
  split
  · exact ⟨rfl, nofun⟩
  rename_i hpresent
  split
  · exact ⟨rfl, nofun⟩
  rw [if_pos]
  · exact ⟨rfl, nofun⟩
  · intro hvalid
    exact h ⟨not_not.mp hformat, not_not.mp horder, (Bool.not_eq_true _).mp hpresent, hvalid⟩

theorem abixBootstrap_ok_iff (hconsume : image.consume = some consume) :
    (abixBootstrap image w).2 = .ok ↔ image.Accepted := by
  constructor
  · intro hok
    by_contra h
    exact (abixBootstrap_of_not_accepted h).2 hok
  · intro h
    rw [abixBootstrap_of_accepted hconsume h]

end Abix.Model
