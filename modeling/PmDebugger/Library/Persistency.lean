import Mathlib.Data.Set.Basic
import Mathlib.Tactic.Common

/-!
# Byte-level persistency

Each byte of persistent memory is clean, dirty or flushed. A store dirties the
bytes it writes, a flush turns the dirty bytes of its range flushed, and a fence
makes every flushed byte clean. Addresses are arbitrary; ranges are decidable
predicates on them.

This is the meaning against which a tracker is judged. It knows nothing about
records, snippets or sets.
-/

namespace Persistency

universe u
variable {β : Type u}

/-- What separates a byte from being durable: a flush and a fence, a fence, or nothing. -/
inductive Status where
  | clean
  | dirty
  | flushed
deriving DecidableEq, Repr

/-- The status of every byte. The bytes may be of any type, and there may be infinitely many of
them. -/
def Memory (β : Type u) : Type u := β → Status

namespace Memory

/-- Nothing is pending. This is the memory at the start. -/
def clean : Memory β := fun _ => .clean

/-- A store makes the bytes of its range dirty, whatever they were before. What was flushed
must be flushed anew. -/
def store (range : β → Prop) [DecidablePred range] (memory : Memory β) : Memory β :=
  fun byte => if range byte then .dirty else memory byte

/-- A flush moves the dirty bytes of its range one step on. Bytes that are flushed or clean
stay so. -/
def flush (range : β → Prop) [DecidablePred range] (memory : Memory β) : Memory β :=
  fun byte => if range byte ∧ memory byte = .dirty then .flushed else memory byte

/-- A fence completes every flushed byte. Dirty bytes stay dirty. -/
def fence (memory : Memory β) : Memory β :=
  fun byte => if memory byte = .flushed then .clean else memory byte

/-- The bytes of the range count as durable, whatever they were before. -/
def release (range : β → Prop) [DecidablePred range] (memory : Memory β) : Memory β :=
  fun byte => if range byte then .clean else memory byte

/-- The bytes that a crash could still lose: the dirty ones and those that are flushed but not
fenced. -/
def Unpersisted (memory : Memory β) (byte : β) : Prop := memory byte ≠ .clean

instance (memory : Memory β) (byte : β) (status : Status) : Decidable (memory byte = status) :=
  inferInstanceAs (Decidable ((memory byte : Status) = status))

instance (memory : Memory β) (byte : β) : Decidable (memory.Unpersisted byte) :=
  inferInstanceAs (Decidable (memory byte ≠ .clean))

end Memory

open Memory

variable {range : β → Prop} [DecidablePred range] {memory : Memory β} {byte : β}

/-- A byte is dirty after a store iff it was written or dirty before. -/
theorem store_dirty : memory.store range byte = .dirty ↔ range byte ∨ memory byte = .dirty := by
  unfold Memory.store
  split <;> simp_all

/-- A byte is pending after a store iff it was written or pending before. -/
theorem store_unpersisted :
    (memory.store range).Unpersisted byte ↔ range byte ∨ memory.Unpersisted byte := by
  unfold Memory.Unpersisted Memory.store
  split <;> simp_all

/-- Only dirty bytes outside the range stay dirty under a flush. -/
theorem flush_dirty :
    memory.flush range byte = .dirty ↔ ¬ range byte ∧ memory byte = .dirty := by
  unfold Memory.flush
  split
  · simp_all
  · simp_all only [not_and]
    constructor
    · intro dirty
      exact ⟨fun inside => absurd dirty (by simp_all), dirty⟩
    · exact And.right

/-- A flush makes no byte durable and none pending. -/
theorem flush_unpersisted : (memory.flush range).Unpersisted byte ↔ memory.Unpersisted byte := by
  unfold Memory.Unpersisted Memory.flush
  split <;> simp_all

/-- A fence leaves the dirty bytes dirty. -/
theorem fence_dirty : memory.fence byte = .dirty ↔ memory byte = .dirty := by
  unfold Memory.fence
  split <;> simp_all

/-- After a fence the pending bytes are exactly the dirty ones. -/
theorem fence_unpersisted : memory.fence.Unpersisted byte ↔ memory byte = .dirty := by
  unfold Memory.Unpersisted Memory.fence
  split
  · simp_all
  · next notFlushed =>
    cases status : memory byte <;> simp_all

/-- The dirty bytes outside the range stay dirty when it is released. -/
theorem release_dirty :
    memory.release range byte = .dirty ↔ ¬ range byte ∧ memory byte = .dirty := by
  unfold Memory.release
  split <;> simp_all

/-- The pending bytes outside the range stay pending when it is released. -/
theorem release_unpersisted :
    (memory.release range).Unpersisted byte ↔ ¬ range byte ∧ memory.Unpersisted byte := by
  unfold Memory.Unpersisted Memory.release
  split <;> simp_all

/-- A byte is flushed iff it is pending but not dirty. -/
theorem flushed_iff : memory byte = .flushed ↔ memory.Unpersisted byte ∧ memory byte ≠ .dirty := by
  unfold Memory.Unpersisted
  cases memory byte <;> simp

end Persistency
