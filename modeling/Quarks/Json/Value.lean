import Quarks.Number
import Mathlib.Data.List.Perm.Basic

/-!
# The two JSON trees of crow

`crow::json::rvalue` is what the parser builds: it points into the text, keeps
numbers and strings as tokens and finds the fields of an object by name.
`crow::json::wvalue` is what handlers build and print: its numbers are doubles
and its objects are `std::unordered_map`s, whose order of iteration C++ leaves
open.
-/

namespace Quarks

/-- What may escape from a call: the exceptions of crow, of Boost and of the
standard library, and behaviour that C++ leaves undefined. -/
inductive Failure
  | runtimeError (what : Bytes)
  | badLexicalCast
  | invalidArgument
  | outOfRange
  | undefined
  deriving DecidableEq

/-- `catch (const std::runtime_error&)`: the failures that such a handler stops. -/
def Failure.isRuntimeError : Failure → Bool
  | .runtimeError _ => true
  | _ => false

/-- The result of two computations comes from results of both. -/
theorem of_bind_ok {α β : Type} {r : Except Failure α} {f : α → Except Failure β} {b : β}
    (h : r.bind f = .ok b) : ∃ a, r = .ok a ∧ f a = .ok b := by
  cases r with
  | error e => cases h
  | ok a => exact ⟨a, rfl, h⟩

/-- A result that is changed comes from a result. -/
theorem of_map_ok {α β : Type} {r : Except Failure α} {f : α → β} {b : β}
    (h : r.map f = .ok b) : ∃ a, r = .ok a ∧ f a = b := by
  cases r with
  | error e => cases h
  | ok a => exact ⟨a, rfl, Except.ok.inj h⟩

/-- What is a result is one with a value. -/
theorem of_isOk {α : Type} {r : Except Failure α} (h : r.isOk = true) : ∃ a, r = .ok a := by
  cases r with
  | error e => cases h
  | ok a => exact ⟨a, rfl⟩

/-- A parsed JSON value. Numbers and strings are the tokens of the text, strings
without their quotes but still escaped; the names of fields are unescaped. -/
inductive RValue
  | null
  | bool (b : Bool)
  | number (token : Bytes)
  | string (raw : Bytes)
  | list (elements : List RValue)
  | object (fields : List (Bytes × RValue))

/-- A JSON value under construction. The fields of an object are listed in the
order in which they were first inserted, which determines the order of iteration. -/
inductive WValue
  | null
  | bool (b : Bool)
  | number (d : Double)
  | string (s : Bytes)
  | list (elements : List WValue)
  | object (fields : List (Bytes × WValue))

/-- Induction over a value: one case for each type, with the claim for the
elements of a list and for the values of an object. -/
@[elab_as_elim]
theorem WValue.induct {motive : WValue → Prop} (null : motive .null)
    (bool : ∀ b, motive (.bool b)) (number : ∀ d, motive (.number d))
    (string : ∀ s, motive (.string s))
    (list : ∀ l : List WValue, (∀ w ∈ l, motive w) → motive (.list l))
    (object : ∀ o : List (Bytes × WValue), (∀ e ∈ o, motive e.2) → motive (.object o))
    (w : WValue) : motive w :=
  @WValue.rec motive (fun l => ∀ w ∈ l, motive w) (fun o => ∀ e ∈ o, motive e.2)
    (fun e => motive e.2) null bool number string list object (by simp)
    (fun _ _ hw hl => List.forall_mem_cons.mpr ⟨hw, hl⟩) (by simp)
    (fun _ _ he ho => List.forall_mem_cons.mpr ⟨he, ho⟩) (fun _ _ hw => hw) w

/-- `std::isxdigit`, as the parser checks it after a backslash and a `u`. -/
def isHexDigit (c : UInt8) : Bool :=
  48 ≤ c && c ≤ 57 || 97 ≤ c && c ≤ 102 || 65 ≤ c && c ≤ 70

/-- `from_hex` of `rvalue::unescape`. -/
def fromHex (c : UInt8) : ℕ :=
  if 97 ≤ c then c.toNat - 97 + 10 else if 65 ≤ c then c.toNat - 65 + 10 else c.toNat - 48

/-- The bytes written for a `\u` escape: one, two or three, by the size of the code. -/
def encodeUnit (code : ℕ) : Bytes :=
  if 0x800 ≤ code then
    [UInt8.ofNat (0xE0 ||| code >>> 12), UInt8.ofNat (0x80 ||| code >>> 6 &&& 0x3F),
      UInt8.ofNat (0x80 ||| code &&& 0x3F)]
  else if 0x80 ≤ code then
    [UInt8.ofNat (0xC0 ||| code >>> 6), UInt8.ofNat (0x80 ||| code &&& 0x3F)]
  else [UInt8.ofNat code]

/-- The byte that a one-letter escape stands for. -/
def escapeTarget : UInt8 → Bytes
  | 34 => [34]
  | 92 => [92]
  | 47 => [47]
  | 98 => [8]
  | 102 => [12]
  | 110 => [10]
  | 114 => [13]
  | 116 => [9]
  | _ => []

/-- `rvalue::unescape`. -/
def unescape : Bytes → Bytes
  | 92 :: 117 :: h₁ :: h₂ :: h₃ :: h₄ :: rest =>
    encodeUnit (fromHex h₁ <<< 12 + fromHex h₂ <<< 8 + fromHex h₃ <<< 4 + fromHex h₄) ++
      unescape rest
  | 92 :: c :: rest => escapeTarget c ++ unescape rest
  | c :: rest => c :: unescape rest
  | [] => []

namespace RValue

/-- `get_type_str`. -/
def typeStr : RValue → Bytes
  | .number _ => ascii "Number"
  | .bool false => ascii "False"
  | .bool true => ascii "True"
  | .list _ => ascii "List"
  | .string _ => ascii "String"
  | .object _ => ascii "Object"
  | .null => ascii "Unknown"

/-- `rvalue::s`. -/
def s : RValue → Except Failure Bytes
  | .string raw => .ok (unescape raw)
  | _ => .error (.runtimeError (ascii "value is not string"))

/-- `rvalue::b`. -/
def b : RValue → Except Failure Bool
  | .bool x => .ok x
  | _ => .error (.runtimeError (ascii "value is not boolean"))

/-- `rvalue::i`. It also reads the digits of a string token. -/
def i : RValue → Except Failure ℤ
  | .number token | .string token => match lexicalCastInt64 token with
    | some z => .ok z
    | none => .error .badLexicalCast
  | x => .error (.runtimeError (ascii "expected number, got: " ++ x.typeStr))

/-- `rvalue::d`. -/
def d : RValue → Except Failure Double
  | .number token => match lexicalCastDouble token with
    | some d => .ok d
    | none => .error .badLexicalCast
  | _ => .error (.runtimeError (ascii "value is not number"))

/-- `rvalue::begin` to `rvalue::end`: the elements of a list or the values of an object. -/
def elements : RValue → Except Failure (List RValue)
  | .list l => .ok l
  | .object o => .ok (o.map Prod.snd)
  | _ => .error (.runtimeError (ascii "value is not a container"))

/-- `rvalue::operator[]` with a name: the first field of that name. -/
def field (x : RValue) (name : Bytes) : Except Failure RValue :=
  match x with
  | .object o => match o.lookup name with
    | some v => .ok v
    | none => .error (.runtimeError (ascii "cannot find key"))
  | _ => .error (.runtimeError (ascii "value is not an object"))

/-- `rvalue::has`. The elements of a list have no names: comparing them reads
pointers that were never set. -/
def has (x : RValue) (name : Bytes) : Except Failure Bool :=
  match x with
  | .object o => .ok (o.lookup name).isSome
  | .list [] => .ok false
  | .list (_ :: _) => .error .undefined
  | _ => .error (.runtimeError (ascii "value is not a container"))

/-- A value with a field is an object that has it. -/
theorem field_cases {x v : RValue} {name : Bytes} (h : x.field name = .ok v) :
    ∃ o, x = .object o ∧ o.lookup name = some v := by
  cases x with
  | object o =>
    simp only [field] at h
    cases hv : o.lookup name with
    | none =>
      rw [hv] at h
      cases h
    | some v' =>
      rw [hv] at h
      cases h
      exact ⟨o, rfl, hv⟩
  | _ => cases h

theorem has_of_field {x v : RValue} {name : Bytes} (h : x.field name = .ok v) :
    x.has name = .ok true := by
  obtain ⟨o, rfl, hv⟩ := field_cases h
  rw [has, hv, Option.isSome_some]

end RValue

/-- The order in which a `std::unordered_map` with byte-string keys is iterated,
as a function of the order of insertion. C++ only promises that every entry
occurs once; that the order does not depend on the values is `map`. -/
class HashOrder where
  /-- The entries in order of iteration, given in order of insertion. -/
  arrange : {α : Type} → List (Bytes × α) → List (Bytes × α)
  perm : ∀ {α : Type} (l : List (Bytes × α)), (arrange l).Perm l
  map : ∀ {α β : Type} (f : α → β) (l : List (Bytes × α)),
    arrange (l.map (Prod.map id f)) = (arrange l).map (Prod.map id f)

/-- Iteration in order of insertion is one of the orders that C++ allows. -/
@[reducible] def HashOrder.insertion : HashOrder where
  arrange l := l
  perm _ := List.Perm.refl _
  map _ _ := rfl

namespace WValue

/-- `unordered_map::emplace`: an entry of that name stays as it is. -/
def emplace {α : Type} (o : List (Bytes × α)) (e : Bytes × α) : List (Bytes × α) :=
  if (o.lookup e.1).isSome then o else o ++ [e]

/-- `w[name] = value` on the entries of an object. -/
def assign {α : Type} (o : List (Bytes × α)) (name : Bytes) (value : α) : List (Bytes × α) :=
  if (o.lookup name).isSome then o.map fun e => if e.1 = name then (e.1, value) else e
  else o ++ [(name, value)]

/-- `w[name] = value`: a value that is not an object becomes one first. -/
def set (w : WValue) (name : Bytes) (value : WValue) : WValue :=
  match w with
  | .object o => .object (assign o name value)
  | _ => .object [(name, value)]

/-- `wvalue::keys`, in order of iteration. -/
def keys [HashOrder] : WValue → List Bytes
  | .object o => (HashOrder.arrange o).map Prod.fst
  | _ => []

/-- `std::move(w[name])` for a name the object has. -/
def take (w : WValue) (name : Bytes) : WValue :=
  match w with
  | .object o => (o.lookup name).getD .null
  | _ => .null

mutual

/-- `wvalue(const rvalue&)`. Every number is read as a double. -/
def ofRValue : RValue → Except Failure WValue
  | .null => .ok .null
  | .bool b => .ok (.bool b)
  | .number token => match lexicalCastDouble token with
    | some d => .ok (.number d)
    | none => .error .badLexicalCast
  | .string raw => .ok (.string (unescape raw))
  | .list l => (ofElements l).map .list
  | .object o => (ofFields o).map fun fs => .object (fs.foldl emplace [])

/-- The elements of a list, converted in order. -/
def ofElements : List RValue → Except Failure (List WValue)
  | [] => .ok []
  | x :: l => (ofRValue x).bind fun w => (ofElements l).map (w :: ·)

/-- The fields of an object, converted in order. -/
def ofFields : List (Bytes × RValue) → Except Failure (List (Bytes × WValue))
  | [] => .ok []
  | e :: l => (ofRValue e.2).bind fun w => (ofFields l).map ((e.1, w) :: ·)

end

end WValue

end Quarks
