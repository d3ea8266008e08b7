import ByteMachine.Proofs.Trajectory

/-!
# Words of stack moves

A tick pushes the current register, pops, or leaves the stack alone.  The moves
of a trajectory form a word, and replaying the word gives the stack as an
abstract list, which is kept beside the machine and not read off its memory.

In a balanced word every push has its pop behind it, and balanced words stand
between the two.

**Results.**
* `replay_of_balanced`: a balanced word leaves every stack as it was.
* `ghost_eq_cons_of_balanced`: a push is on top again wherever a balanced word
  separates it from the present.
* `exists_push_of_ghost_eq_cons`: the top of the stack is always the value of a push
  that a balanced word separates from the present.
-/

namespace ByteMachine

/-- What a tick does to the stack. -/
inductive Move
  | push (x : UInt8)
  | pop
  | other
  deriving DecidableEq

namespace Move

/-- The stack after a move. -/
def apply : Move → List UInt8 → List UInt8
  | push x, st => x :: st
  | pop, st => st.tail
  | other, st => st

/-- The stack after the moves of a word. -/
def replay (w : List Move) (st : List UInt8) : List UInt8 :=
  w.foldl (fun st mv => mv.apply st) st

@[simp]
theorem replay_nil (st : List UInt8) : replay [] st = st := rfl

@[simp]
theorem replay_cons (mv : Move) (w : List Move) (st : List UInt8) :
    replay (mv :: w) st = replay w (mv.apply st) := rfl

@[simp]
theorem replay_append (u w : List Move) (st : List UInt8) :
    replay (u ++ w) st = replay w (replay u st) := by
  simp [replay]

/-- The words in which every push is matched by a later pop, and every pop by an
earlier push. -/
inductive Balanced : List Move → Prop
  | nil : Balanced []
  | other {w : List Move} : Balanced w → Balanced (other :: w)
  | nested (x : UInt8) {u w : List Move} :
      Balanced u → Balanced w → Balanced (push x :: (u ++ pop :: w))

theorem Balanced.append {u w : List Move} (hu : Balanced u) (hw : Balanced w) :
    Balanced (u ++ w) := by
  induction hu with
  | nil => exact hw
  | other _ ih => exact Balanced.other ih
  | nested x hv _ _ ih =>
      rw [List.cons_append, List.append_assoc, List.cons_append]
      exact Balanced.nested x hv ih

/-- A balanced word leaves every stack as it was. -/
theorem replay_of_balanced {w : List Move} (h : Balanced w) (st : List UInt8) :
    replay w st = st := by
  induction h generalizing st with
  | nil => rfl
  | other _ ih => exact ih st
  | nested x _ _ ihu ihw =>
      rw [replay_cons, replay_append, ihu, replay_cons]
      exact ihw st

end Move

/-- What the next tick does to the stack. -/
def Core.move {μ : Type} [Bus μ] (c : Core μ) : Move :=
  match c.outlook with
  | .execute .push => .push c.value
  | .execute .pop => .pop
  | _ => .other

namespace Machine

section

variable {μ ω : Type} [Bus μ] [Sink ω]

/-- The word of the moves from tick `i` on and before tick `j`. -/
def moves (v : Verbosity) (m : Machine μ ω) (i j : Nat) : List Move :=
  (List.range' i (j - i)).map fun k => (m.after v k).core.move

/-- The abstract stack after `n` ticks, which is empty at the start. -/
def ghost (v : Verbosity) (m : Machine μ ω) (n : Nat) : List UInt8 :=
  Move.replay (m.moves v 0 n) []

variable (v : Verbosity) (m : Machine μ ω)

@[simp]
theorem moves_self (i : Nat) : m.moves v i i = [] := by
  simp [moves]

theorem moves_append {i j k : Nat} (hij : i ≤ j) (hjk : j ≤ k) :
    m.moves v i j ++ m.moves v j k = m.moves v i k := by
  have hj : j = i + (j - i) := by omega
  have hk : k - i = (j - i) + (k - j) := by omega
  rw [moves, moves, moves, ← List.map_append, hk, ← List.range'_append_1, ← hj]

@[simp]
theorem moves_succ_self (i : Nat) :
    m.moves v i (i + 1) = [(m.after v i).core.move] := by
  simp [moves]

theorem moves_succ {i j : Nat} (hij : i ≤ j) :
    m.moves v i (j + 1) = m.moves v i j ++ [(m.after v j).core.move] := by
  rw [← moves_append v m hij (Nat.le_succ j), moves_succ_self]

@[simp]
theorem ghost_zero : m.ghost v 0 = [] := by
  simp [ghost]

theorem ghost_eq_replay {i j : Nat} (hij : i ≤ j) :
    m.ghost v j = Move.replay (m.moves v i j) (m.ghost v i) := by
  rw [ghost, ghost, ← moves_append v m (Nat.zero_le i) hij, Move.replay_append]

theorem ghost_succ (n : Nat) :
    m.ghost v (n + 1) = (m.after v n).core.move.apply (m.ghost v n) := by
  rw [ghost_eq_replay v m (Nat.le_succ n), moves_succ_self]
  rfl

/-- A push is on top again wherever a balanced word separates it from the
present. -/
theorem ghost_eq_cons_of_balanced {i j : Nat} {x : UInt8} (hij : i < j)
    (hpush : (m.after v i).core.move = .push x)
    (hb : Move.Balanced (m.moves v (i + 1) j)) :
    m.ghost v j = x :: m.ghost v i := by
  rw [ghost_eq_replay v m hij, Move.replay_of_balanced hb, ghost_succ, hpush]
  rfl

/-- The top of the stack is the value of a push that a balanced word separates
from the present, and the stack below it is the one at that push. -/
theorem exists_push_of_ghost_eq_cons (j : Nat) :
    ∀ (x : UInt8) (st : List UInt8), m.ghost v j = x :: st →
      ∃ i, i < j ∧ (m.after v i).core.move = .push x ∧ m.ghost v i = st ∧
        Move.Balanced (m.moves v (i + 1) j) := by
  induction j using Nat.strongRecOn with
  | ind j ih =>
      intro x st hj
      cases j with
      | zero => simp at hj
      | succ j =>
          rw [ghost_succ] at hj
          cases hmv : (m.after v j).core.move with
          | push y =>
              rw [hmv] at hj
              simp only [Move.apply, List.cons.injEq] at hj
              obtain ⟨rfl, rfl⟩ := hj
              exact ⟨j, Nat.lt_succ_self j, hmv, rfl, by simpa using Move.Balanced.nil⟩
          | other =>
              rw [hmv] at hj
              obtain ⟨i, hij, hpush, hst, hb⟩ := ih j (Nat.lt_succ_self j) x st hj
              refine ⟨i, by omega, hpush, hst, ?_⟩
              rw [moves_succ v m hij, hmv]
              exact hb.append (Move.Balanced.other Move.Balanced.nil)
          | pop =>
              -- The pop uncovers what lay below the top, so the push of the
              -- present top is matched before the push of the popped value.
              rw [hmv] at hj
              cases hg : m.ghost v j with
              | nil =>
                  rw [hg] at hj
                  cases hj
              | cons y rest =>
                  rw [hg] at hj
                  obtain rfl : rest = x :: st := hj
                  obtain ⟨k, hkj, hpushy, hk, hbk⟩ :=
                    ih j (Nat.lt_succ_self j) y (x :: st) hg
                  obtain ⟨i, hik, hpush, hst, hbi⟩ := ih k (by omega) x st hk
                  refine ⟨i, by omega, hpush, hst, ?_⟩
                  rw [moves_succ v m (by omega), hmv,
                    ← moves_append v m (show i + 1 ≤ k by omega) (show k ≤ j by omega),
                    ← moves_append v m (Nat.le_succ k) (show k + 1 ≤ j by omega),
                    moves_succ_self, hpushy, List.append_assoc]
                  apply hbi.append
                  exact Move.Balanced.nested y hbk Move.Balanced.nil

end

end Machine
end ByteMachine
