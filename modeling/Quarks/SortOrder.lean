import Quarks.Core.Sorted
import Quarks.Json.Paths

/-!
# The order of a sorted listing

The comparator of `getSorted` orders numbers by their integral parts and strings by their
bytes; any other two objects are equivalent for it. So an object that has no number in the
field is equivalent to two numbers of which one is less than the other.
-/

namespace Quarks

open Basis

/-! ## What is compared -/

/-- The field of the value that the comparator looks at, if there is one. -/
def sorterOf (sorter : Bytes) (x : RValue) : Option RValue :=
  (x.child? (.field (ascii "value"))).bind (·.child? (.field sorter))

/-- The number that the comparator makes of a token. -/
def sorterInt (token : Bytes) : Except Failure ℤ := (RValue.number token).d >>= Double.toInt

/-- What the comparator does with two fields. -/
def compareSorters : Option RValue → Option RValue → Except Failure Bool
  | some (.number l), some (.number r) => compareNumeric (.number l) (.number r)
  | some (.string l), some (.string r) => compareAlpha (.string l) (.string r)
  | _, _ => .ok false

/-- The types of field that the comparator tells apart. -/
inductive SorterKind
  | number
  | string
  | other
  deriving DecidableEq

/-- The type of a field. -/
def sorterKind : Option RValue → SorterKind
  | some (.number _) => .number
  | some (.string _) => .string
  | _ => .other

theorem isObjectWith_eq (x : RValue) (name : Bytes) :
    x.isObjectWith name = .ok (x.child? (.field name)).isSome := by
  cases x <;> rfl

section

variable {sorter : Bytes} {x y : Option RValue} {a b : RValue}

/-- The conversion to `int` fails by being undefined. -/
theorem toInt_error {d : Double} {e : Failure} (h : d.toInt = .error e) : e = .undefined := by
  unfold Double.toInt at h
  simp only at h
  generalize (if d.negative = true then _ else _ : ℤ) = z at h
  by_cases hz : -2 ^ 31 ≤ z ∧ z < 2 ^ 31
  · rw [if_pos hz] at h
    cases h
  · rw [if_neg hz] at h
    exact (Except.error.inj h).symm

/-- A number that cannot be compared is no runtime error. -/
theorem not_isRuntimeError_of_sorterInt {token : Bytes} {e : Failure}
    (h : sorterInt token = .error e) : e.isRuntimeError = false := by
  unfold sorterInt RValue.d at h
  simp only at h
  cases hd : lexicalCastDouble token with
  | none =>
    rw [hd] at h
    cases h
    rfl
  | some d =>
    rw [hd] at h
    rw [toInt_error h]
    rfl

/-- A comparison of numbers. -/
theorem compareNumeric_eq (l r : Bytes) : compareNumeric (.number l) (.number r) =
    (sorterInt l).bind fun z => (sorterInt r).bind fun z' => .ok (decide (z < z')) := by
  unfold compareNumeric sorterInt
  cases (RValue.number l).d with
  | error e => rfl
  | ok d =>
    cases (RValue.number r).d with
    | error e =>
      change d.toInt.bind _ = d.toInt.bind _
      rfl
    | ok d' => rfl

/-- The exceptions of a comparison are not caught. -/
theorem caught_compareSorters (x y : Option RValue) (s : Except Failure Bool) :
    caught (compareSorters x y) s = compareSorters x y := by
  cases hr : compareSorters x y with
  | ok r => rfl
  | error e =>
    suffices h : e.isRuntimeError = false by rw [caught, h]; rfl
    unfold compareSorters at hr
    split at hr
    · next l r =>
      rw [compareNumeric_eq] at hr
      cases hl : sorterInt l with
      | error f =>
        rw [hl] at hr
        cases hr
        exact not_isRuntimeError_of_sorterInt hl
      | ok z =>
        cases hr' : sorterInt r with
        | error f =>
          rw [hl, hr'] at hr
          cases hr
          exact not_isRuntimeError_of_sorterInt hr'
        | ok z' =>
          rw [hl, hr'] at hr
          cases hr
    all_goals cases hr

/-- The comparator compares the two fields. -/
theorem jsonComparer_eq (sorter : Bytes) (a b : RValue) :
    jsonComparer sorter a b = compareSorters (sorterOf sorter a) (sorterOf sorter b) := by
  have hnone : ∀ x, compareSorters x none = .ok false := by
    intro x
    unfold compareSorters
    split <;> first | rfl | contradiction
  unfold jsonComparer sorterOf
  cases ha : a.child? (.field (ascii "value")) with
  | none =>
    obtain ⟨what, hwhat⟩ := RValue.field_of_child?_none ha
    rw [hwhat]
    rfl
  | some lhs =>
    rw [RValue.field_of_child? ha]
    cases hb : b.child? (.field (ascii "value")) with
    | none =>
      obtain ⟨what, hwhat⟩ := RValue.field_of_child?_none hb
      rw [hwhat, Option.bind_none, hnone]
      rfl
    | some rhs =>
      rw [RValue.field_of_child? hb, Option.bind_some, Option.bind_some,
        ← caught_compareSorters _ _ (.ok false)]
      simp only [bind, Except.bind, isObjectWith_eq]
      cases hl : lhs.child? (.field sorter) with
      | none => rfl
      | some lSorter =>
        cases hr : rhs.child? (.field sorter) with
        | none =>
          rw [hnone]
          rfl
        | some rSorter =>
          rw [RValue.field_of_child? hl, RValue.field_of_child? hr]
          cases lSorter <;> cases rSorter <;> rfl

/-- One field is less than another if both are numbers, or both strings. -/
theorem compareSorters_eq_true : compareSorters x y = .ok true ↔
    (∃ l r z z', x = some (.number l) ∧ y = some (.number r) ∧ sorterInt l = .ok z ∧
      sorterInt r = .ok z' ∧ z < z') ∨
    ∃ l r, x = some (.string l) ∧ y = some (.string r) ∧ unescape l < unescape r := by
  constructor
  · intro h
    unfold compareSorters at h
    split at h
    · next l r =>
      rw [compareNumeric_eq] at h
      obtain ⟨z, hz, h⟩ := of_bind_ok h
      obtain ⟨z', hz', h⟩ := of_bind_ok h
      exact Or.inl ⟨l, r, z, z', rfl, rfl, hz, hz', by simpa using h⟩
    · next l r =>
      have hlt : (Except.ok (decide (unescape l < unescape r)) : Except Failure Bool) =
        .ok true := h
      exact Or.inr ⟨l, r, rfl, rfl, by simpa using hlt⟩
    · cases h
  · rintro (⟨l, r, z, z', rfl, rfl, hz, hz', hlt⟩ | ⟨l, r, rfl, rfl, hlt⟩)
    · change compareNumeric (.number l) (.number r) = _
      rw [compareNumeric_eq, hz, hz']
      exact congrArg Except.ok (decide_eq_true hlt)
    · exact congrArg Except.ok (decide_eq_true hlt)

/-- A field of the type of a number is one. -/
theorem of_sorterKind_number (h : sorterKind x = .number) : ∃ l, x = some (.number l) := by
  unfold sorterKind at h
  split at h <;> first | exact ⟨_, rfl⟩ | cases h

/-- A field of the type of a string is one. -/
theorem of_sorterKind_string (h : sorterKind x = .string) : ∃ l, x = some (.string l) := by
  unfold sorterKind at h
  split at h <;> first | exact ⟨_, rfl⟩ | cases h

end

/-! ## A strict weak order -/

section

variable (sorter : Bytes) (l : List RValue)

/-- What `std::sort` asks of the comparator on these objects: it returns for any two of them,
and it is a strict weak order. -/
structure ComparesStrictly : Prop where
  returns : ∀ a ∈ l, ∀ b ∈ l, (jsonComparer sorter a b).isOk = true
  strictWeak : StrictWeakOn (fun a b => (jsonComparer sorter a b).toOption.getD false) l

/-- Two fields are numbers of different integral parts, or different strings. -/
def Differ (x y : Option RValue) : Prop :=
  (∃ l r, x = some (.number l) ∧ y = some (.number r) ∧ sorterInt l ≠ sorterInt r) ∨
    ∃ l r, x = some (.string l) ∧ y = some (.string r) ∧ unescape l ≠ unescape r

/-- The numbers in the field fit into an `int`, and if two numbers or two strings differ there,
all objects have a field of their type. -/
structure OneKind : Prop where
  fits : ∀ a ∈ l, ∀ token, sorterOf sorter a = some (.number token) →
    ∃ z, sorterInt token = .ok z
  sameKind : ∀ a ∈ l, ∀ b ∈ l, ∀ c ∈ l, Differ (sorterOf sorter a) (sorterOf sorter b) →
    sorterKind (sorterOf sorter c) = sorterKind (sorterOf sorter a)

end

section

variable {sorter : Bytes} {l : List RValue}

/-- The comparator on objects that it compares without an exception. -/
theorem jsonComparer_getD {a b : RValue} :
    (jsonComparer sorter a b).toOption.getD false = true ↔
      compareSorters (sorterOf sorter a) (sorterOf sorter b) = .ok true := by
  rw [jsonComparer_eq]
  cases compareSorters (sorterOf sorter a) (sorterOf sorter b) with
  | error e => exact iff_of_false Bool.false_ne_true (by simp)
  | ok r => simp [Except.toOption]

/-- Numbers that fit can be compared, and so can any other fields. -/
theorem compareSorters_isOk {x y : Option RValue}
    (hx : ∀ token, x = some (.number token) → ∃ z, sorterInt token = .ok z)
    (hy : ∀ token, y = some (.number token) → ∃ z, sorterInt token = .ok z) :
    (compareSorters x y).isOk = true := by
  unfold compareSorters
  split
  · next l r =>
    obtain ⟨z, hz⟩ := hx l rfl
    obtain ⟨z', hz'⟩ := hy r rfl
    rw [compareNumeric_eq, hz, hz']
    rfl
  all_goals rfl

/-- No object is less than itself. -/
theorem jsonComparer_irrefl (sorter : Bytes) (a : RValue) :
    (jsonComparer sorter a a).toOption.getD false = false := by
  rw [← Bool.not_eq_true, jsonComparer_getD, compareSorters_eq_true]
  rintro (⟨t, t', z, z', h, h', hz, hz', hlt⟩ | ⟨t, t', h, h', hlt⟩)
  · rw [h] at h'
    cases h'
    rw [hz] at hz'
    cases hz'
    exact lt_irrefl _ hlt
  · rw [h] at h'
    cases h'
    exact lt_irrefl _ hlt

/-- The comparator orders the objects whose fields are of one type. -/
theorem orderedWithin_jsonComparer
    (hfits : ∀ a ∈ l, ∀ token, sorterOf sorter a = some (.number token) →
      ∃ z, sorterInt token = .ok z) :
    OrderedWithin (fun a b => (jsonComparer sorter a b).toOption.getD false)
      (fun a => sorterKind (sorterOf sorter a)) l where
  irrefl a _ := jsonComparer_irrefl sorter a
  trans a ha b hb c hc := by
    simp only [jsonComparer_getD, compareSorters_eq_true]
    rintro (⟨t, t', z, z', h, h', hz, hz', hlt⟩ | ⟨t, t', h, h', hlt⟩)
      (⟨u, u', y, y', g, g', hy, hy', hlt'⟩ | ⟨u, u', g, g', hlt'⟩)
    · rw [h'] at g
      cases g
      rw [hz'] at hy
      cases hy
      exact Or.inl ⟨t, u', z, y', h, g', hz, hy', hlt.trans hlt'⟩
    · rw [h'] at g
      cases g
    · rw [h'] at g
      cases g
    · rw [h'] at g
      cases g
      exact Or.inr ⟨t, u', h, g', hlt.trans hlt'⟩
  sameKind a ha b hb := by
    simp only [jsonComparer_getD, compareSorters_eq_true]
    rintro (⟨t, t', z, z', h, h', -⟩ | ⟨t, t', h, h', -⟩) <;> rw [h, h'] <;> rfl
  between a ha b hb c hc := by
    simp only [jsonComparer_getD, compareSorters_eq_true]
    rintro (⟨t, t', z, z', h, h', hz, hz', hlt⟩ | ⟨t, t', h, h', hlt⟩) hkind
    · rw [h] at hkind
      obtain ⟨u, hu⟩ := of_sorterKind_number hkind
      obtain ⟨y, hy⟩ := hfits b hb u hu
      rcases lt_or_ge z y with hzy | hyz
      · exact Or.inl (Or.inl ⟨t, u, z, y, h, hu, hz, hy, hzy⟩)
      · exact Or.inr (Or.inl ⟨u, t', y, z', hu, h', hy, hz', hyz.trans_lt hlt⟩)
    · rw [h] at hkind
      obtain ⟨u, hu⟩ := of_sorterKind_string hkind
      rcases lt_or_ge (unescape t) (unescape u) with htu | hut
      · exact Or.inl (Or.inr ⟨t, u, h, hu, htu⟩)
      · exact Or.inr (Or.inr ⟨u, t', hu, h', hut.trans_lt hlt⟩)

/-- The comparator is a strict weak order on the objects exactly if their numbers fit, and no
object is of another type than two that differ. -/
theorem comparesStrictly_iff : ComparesStrictly sorter l ↔ OneKind sorter l := by
  constructor
  · intro h
    have hfits : ∀ a ∈ l, ∀ token, sorterOf sorter a = some (.number token) →
        ∃ z, sorterInt token = .ok z := by
      intro a ha token htoken
      have hself := h.returns a ha a ha
      rw [jsonComparer_eq, htoken] at hself
      change (compareNumeric (.number token) (.number token)).isOk = true at hself
      rw [compareNumeric_eq] at hself
      cases hz : sorterInt token with
      | ok z => exact ⟨z, rfl⟩
      | error e =>
        rw [hz] at hself
        cases hself
    have hone := (orderedWithin_jsonComparer hfits).strictWeakOn_iff.mp h.strictWeak
    simp only [jsonComparer_getD, compareSorters_eq_true] at hone
    refine ⟨hfits, fun a ha b hb c hc => ?_⟩
    rintro (⟨t, t', hat, hbt, hne⟩ | ⟨t, t', hat, hbt, hne⟩)
    · obtain ⟨z, hz⟩ := hfits a ha t hat
      obtain ⟨z', hz'⟩ := hfits b hb t' hbt
      have hzz : z ≠ z' := by
        rintro rfl
        exact hne (hz.trans hz'.symm)
      rcases lt_or_gt_of_ne hzz with hlt | hlt
      · exact hone a ha b hb c hc (Or.inl ⟨t, t', z, z', hat, hbt, hz, hz', hlt⟩)
      · rw [hone b hb a ha c hc (Or.inl ⟨t', t, z', z, hbt, hat, hz', hz, hlt⟩), hat, hbt]
        rfl
    · rcases lt_or_gt_of_ne hne with hlt | hlt
      · exact hone a ha b hb c hc (Or.inr ⟨t, t', hat, hbt, hlt⟩)
      · rw [hone b hb a ha c hc (Or.inr ⟨t', t, hbt, hat, hlt⟩), hat, hbt]
        rfl
  · intro h
    refine ⟨fun a ha b hb => ?_, ?_⟩
    · rw [jsonComparer_eq]
      exact compareSorters_isOk (h.fits a ha) (h.fits b hb)
    · refine (orderedWithin_jsonComparer h.fits).strictWeakOn_iff.mpr ?_
      simp only [jsonComparer_getD, compareSorters_eq_true]
      intro a ha b hb c hc hlt
      refine h.sameKind a ha b hb c hc ?_
      rcases hlt with ⟨t, t', z, z', hat, hbt, hz, hz', hlt⟩ | ⟨t, t', hat, hbt, hlt⟩
      · refine Or.inl ⟨t, t', hat, hbt, fun heq => ?_⟩
        rw [hz, hz'] at heq
        cases heq
        exact lt_irrefl _ hlt
      · exact Or.inr ⟨t, t', hat, hbt, hlt.ne⟩

end

/-! ## Two numbers and an object without the field -/

/-- An object with a value, as `getSorted` makes it of an entry. -/
def valueObject (value : RValue) : RValue :=
  .object [(ascii "value", value), (ascii "key", .string (ascii "k"))]

/-- An object with the number in the field. -/
def numbered (token : Bytes) : RValue := valueObject (.object [(ascii "a", .number token)])

/-- An object that has no such field is equivalent to 1 and to 2. -/
theorem not_comparesStrictly_missing : ¬ComparesStrictly (ascii "a")
    [numbered (ascii "1"), valueObject (.object []), numbered (ascii "2")] := by
  intro h
  have hequiv := h.strictWeak.equivalent_trans (numbered (ascii "1")) (by simp)
    (valueObject (.object [])) (by simp) (numbered (ascii "2")) (by simp)
    (by decide +kernel) (by decide +kernel)
  have hless : (jsonComparer (ascii "a") (numbered (ascii "1"))
      (numbered (ascii "2"))).toOption.getD false = true := by decide +kernel
  exact Bool.false_ne_true (hequiv.1.symm.trans hless)

end Quarks
