import Mathlib.Data.List.Basic
import Mathlib.Data.List.Infix

/-!
# Walks through directories

A path is a list of hops: to stay, to go up, or to go down to a name. Every walk has a
normal form, which goes up first and down then. It tells where the walk ends from any
directory, and so whether the walk ends below the directory in which it starts.
-/

namespace Basis

/-- One part of a path. -/
inductive Hop (α : Type*)
  | stay
  | up
  | down (name : α)

variable {α : Type*}

/-- The directory that a hop leads to. A directory is the list of names that lead to it
from the root, and nothing is above the root. -/
def Hop.from (dir : List α) : Hop α → List α
  | stay => dir
  | up => dir.dropLast
  | down name => dir ++ [name]

/-- The directory in which a walk ends. -/
def walk (dir : List α) (hops : List (Hop α)) : List α := hops.foldl Hop.from dir

/-- A walk that goes up a number of times, and then down. -/
structure Climb (α : Type*) where
  ups : ℕ
  names : List α

namespace Climb

/-- The directory in which the walk ends. -/
def target (c : Climb α) (dir : List α) : List α := dir.take (dir.length - c.ups) ++ c.names

/-- One hop more. To go up takes the last name back, if there is one. -/
def hop (c : Climb α) : Hop α → Climb α
  | .stay => c
  | .up => if c.names = [] then ⟨c.ups + 1, []⟩ else ⟨c.ups, c.names.dropLast⟩
  | .down name => ⟨c.ups, c.names ++ [name]⟩

theorem target_hop (c : Climb α) (h : Hop α) (dir : List α) :
    (c.hop h).target dir = h.from (c.target dir) := by
  cases h with
  | stay => rfl
  | up =>
    simp only [hop, target, Hop.from]
    split
    · next hnames =>
      rw [hnames, List.append_nil, List.append_nil, List.dropLast_eq_take, List.take_take,
        List.length_take]
      dsimp only
      congr 1
      omega
    · next hnames => rw [List.dropLast_append_of_ne_nil hnames]
  | down name => simp [hop, target, Hop.from]

/-- The walk ends below the directory in which it starts exactly if it goes down again
through the directories that it has left. -/
theorem prefix_target_iff (c : Climb α) (dir : List α) :
    dir <+: c.target dir ↔ dir.drop (dir.length - c.ups) <+: c.names := by
  have hsplit := List.take_append_drop (dir.length - c.ups) dir
  constructor
  · intro h
    have happend : dir.take (dir.length - c.ups) ++ dir.drop (dir.length - c.ups) <+:
        dir.take (dir.length - c.ups) ++ c.names := by
      rw [hsplit]
      exact h
    exact (List.prefix_append_right_inj _).mp happend
  · intro h
    have happend := (List.prefix_append_right_inj (dir.take (dir.length - c.ups))).mpr h
    rwa [hsplit] at happend

end Climb

/-- The normal form of a walk. -/
def climb (hops : List (Hop α)) : Climb α := hops.foldl Climb.hop ⟨0, []⟩

theorem target_climb (hops : List (Hop α)) (dir : List α) :
    (climb hops).target dir = walk dir hops := by
  have hfrom : ∀ c : Climb α, (hops.foldl Climb.hop c).target dir = walk (c.target dir) hops := by
    induction hops with
    | nil => exact fun _ => rfl
    | cons h hops ih =>
      intro c
      rw [List.foldl_cons, ih, Climb.target_hop]
      rfl
  rw [climb, hfrom]
  simp [Climb.target]

/-- The walk stays in the directory, or comes back to it. -/
def Stays (dir : List α) (hops : List (Hop α)) : Prop :=
  dir.drop (dir.length - (climb hops).ups) <+: (climb hops).names

instance [DecidableEq α] (dir : List α) (hops : List (Hop α)) : Decidable (Stays dir hops) :=
  inferInstanceAs (Decidable (_ <+: _))

theorem prefix_walk_iff (dir : List α) (hops : List (Hop α)) :
    dir <+: walk dir hops ↔ Stays dir hops := by
  rw [← target_climb]
  exact (climb hops).prefix_target_iff dir

/-- A walk that does not go up in its normal form stays. -/
theorem stays_of_ups_eq_zero {dir : List α} {hops : List (Hop α)} (h : (climb hops).ups = 0) :
    Stays dir hops := by
  rw [Stays, h, Nat.sub_zero, List.drop_length]
  exact List.nil_prefix

end Basis
