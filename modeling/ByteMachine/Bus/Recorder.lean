import ByteMachine.Bus.Basic

/-!
# A bus that records the writes

A recorder passes every read and write on to the memory behind it and keeps the
list of writes in the order in which they were made.

**Results.**
* `writes_replay`: replayed writes are recorded one by one, in order.
* `store_replay`: the memory behind a recorder changes as it would without one.
-/

namespace ByteMachine

/-- A memory together with the writes made to it so far. -/
structure Recorder (μ : Type) where
  store : μ
  /-- The writes, address and byte, oldest first. -/
  writes : Array (UInt8 × UInt8)
  deriving DecidableEq

namespace Recorder

section

variable {μ : Type} [Bus μ]

/-- A memory on which no write has been recorded yet. -/
def fresh (store : μ) : Recorder μ :=
  ⟨store, #[]⟩

instance : Bus (Recorder μ) where
  read m a := Bus.read m.store a
  write m a x := ⟨Bus.write m.store a x, m.writes.push (a, x)⟩

@[simp]
theorem read_eq (m : Recorder μ) (a : UInt8) :
    Bus.read m a = Bus.read m.store a := rfl

@[simp]
theorem store_write (m : Recorder μ) (a x : UInt8) :
    (Bus.write m a x).store = Bus.write m.store a x := rfl

@[simp]
theorem writes_write (m : Recorder μ) (a x : UInt8) :
    (Bus.write m a x).writes = m.writes.push (a, x) := rfl

theorem store_replay :
    ∀ (ws : List (UInt8 × UInt8)) (m : Recorder μ),
      (Bus.replay m ws).store = Bus.replay m.store ws
  | [], _ => rfl
  | w :: ws, m => by simp [store_replay ws]

theorem writes_replay :
    ∀ (ws : List (UInt8 × UInt8)) (m : Recorder μ),
      (Bus.replay m ws).writes.toList = m.writes.toList ++ ws
  | [], m => by simp
  | w :: ws, m => by simp [writes_replay ws]

end

end Recorder
end ByteMachine
