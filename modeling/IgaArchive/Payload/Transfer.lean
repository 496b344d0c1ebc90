import IgaArchive.Payload.Transform
import IgaArchive.Text.Numeral

/-!
Copying a payload through the transform. A transfer moves a given number of bytes from a source to a
sink, one buffer at a time, and stops at the first short read or failed write. Sources and sinks work
on a common state, because a transfer may overwrite the very file it reads from.
-/

namespace IgaArchive.Payload

def defaultBuffer : Int := 4096

/-- The transform repeats every 256 bytes, and buffers are whole multiples of that. -/
def ValidBuffer (size : Int) : Prop :=
  0 < size ∧ size % 256 = 0

instance (size : Int) : Decidable (ValidBuffer size) :=
  inferInstanceAs (Decidable (_ ∧ _))

/-- The buffer size that a request stands for: zero asks for the default. -/
def chosenBuffer (requested : Int) : Int :=
  if requested = 0 then defaultBuffer else requested

inductive TransferError (ε : Type) where
  /-- The source ended before the payload did. -/
  | shortRead
  | write (error : ε)
  deriving Repr

/-- How a transfer ended: the bytes passed through the transform, and the error if there was one. -/
structure TransferResult (ε : Type) where
  count : Nat
  error : Option (TransferError ε)

/-- Gives up to `length` bytes of the payload from a position on, fewer only at the end. -/
abbrev Source (σ : Type) := σ → (position length : Nat) → Bytes

/-- Takes bytes and reports why it could not take all of them. -/
abbrev Sink (σ ε : Type) := σ → Bytes → σ × Option ε

variable {σ ε : Type}

def transferFrom (source : Source σ) (sink : Sink σ ε) (key : UInt8) (buffer count position : Nat)
    (state : σ) : σ × TransferResult ε :=
  if _more : position < count ∧ 0 < buffer then
    let wanted := min buffer (count - position)
    let chunk := source state position wanted
    if chunk.length < wanted then (state, ⟨position, some .shortRead⟩)
    else
      match sink state (transform key (Int64.ofNat position) chunk) with
      | (state, some error) => (state, ⟨position + wanted, some (.write error)⟩)
      | (state, none) => transferFrom source sink key buffer count (position + wanted) state
  else (state, ⟨position, none⟩)
termination_by count - position
decreasing_by omega

def transfer (source : Source σ) (sink : Sink σ ε) (key : UInt8) (buffer count : Nat) (state : σ) :
    σ × TransferResult ε :=
  transferFrom source sink key buffer count 0 state

def sourceOf (bytes : Bytes) : Source σ :=
  fun _ position length => (bytes.drop position).take length

structure Basin where
  room : Option Nat := none
  held : Bytes := []

inductive BasinFull where
  | full
  deriving DecidableEq, Repr

def BasinFull.message : BasinFull → Bytes
  | .full => utf8 "sink full"

def Basin.pour (basin : Basin) (bytes : Bytes) : Basin × Nat × Option BasinFull :=
  match basin.room with
  | none => ({ basin with held := basin.held ++ bytes }, bytes.length, none)
  | some room =>
    let taken := bytes.take room
    ({ room := some (room - taken.length), held := basin.held ++ taken }, taken.length,
      if taken.length < bytes.length then some .full else none)

def Basin.sink : Sink Basin BasinFull := fun basin bytes =>
  let (basin, _, error) := basin.pour bytes
  (basin, error)

end IgaArchive.Payload
