import Quarks.Json.Load

/-!
# The printer of crow

`crow::json::dump` prints a value without white space. Strings are escaped, and
the fields of an object are printed in the order in which its map is iterated.
-/

namespace Quarks

/-- A lower-case hexadecimal digit. -/
def hexDigit (n : ℕ) : UInt8 := if n < 10 then UInt8.ofNat (48 + n) else UInt8.ofNat (87 + n)

/-- What `crow::json::escape` writes for one character. -/
def escapeChar (c : UInt8) : Bytes :=
  if c = 34 then [92, 34]
  else if c = 92 then [92, 92]
  else if c = 10 then [92, 110]
  else if c = 8 then [92, 98]
  else if c = 12 then [92, 102]
  else if c = 13 then [92, 114]
  else if c = 9 then [92, 116]
  else if c < 32 then [92, 117, 48, 48, hexDigit (c.toNat / 16), hexDigit (c.toNat % 16)]
  else [c]

/-- `crow::json::escape`. -/
def escape (s : Bytes) : Bytes := s.flatMap escapeChar

/-- `dump_string`. -/
def dumpString (s : Bytes) : Bytes := 34 :: (escape s ++ [34])

/-- The texts of the elements of a container, separated by commas. -/
def joinComma : List Bytes → Bytes
  | [] => []
  | [t] => t
  | t :: ts => t ++ 44 :: joinComma ts

/-- The text of one field from the text of its value. -/
def dumpField (e : Bytes × Bytes) : Bytes := dumpString e.1 ++ 58 :: e.2

mutual

/-- `crow::json::dump`. -/
def dump [HashOrder] : WValue → Bytes
  | .null => ascii "null"
  | .bool false => ascii "false"
  | .bool true => ascii "true"
  | .number d => printG10 d
  | .string s => dumpString s
  | .list l => 91 :: (joinComma (dumpElements l) ++ [93])
  | .object o => 123 :: (joinComma ((HashOrder.arrange (dumpFields o)).map dumpField) ++ [125])

/-- The texts of the elements of a list. -/
def dumpElements [HashOrder] : List WValue → List Bytes
  | [] => []
  | w :: l => dump w :: dumpElements l

/-- The texts of the values of an object, with their names. -/
def dumpFields [HashOrder] : List (Bytes × WValue) → List (Bytes × Bytes)
  | [] => []
  | e :: o => (e.1, dump e.2) :: dumpFields o

end

mutual

/-- The value that is parsed from the printed text: its tokens are those printed,
its fields come in the order printed. -/
def reread [HashOrder] : WValue → RValue
  | .null => .null
  | .bool b => .bool b
  | .number d => .number (printG10 d)
  | .string s => .string (escape s)
  | .list l => .list (rereadElements l)
  | .object o => .object (HashOrder.arrange (rereadFields o))

/-- The elements of a list, reread. -/
def rereadElements [HashOrder] : List WValue → List RValue
  | [] => []
  | w :: l => reread w :: rereadElements l

/-- The fields of an object, reread. -/
def rereadFields [HashOrder] : List (Bytes × WValue) → List (Bytes × RValue)
  | [] => []
  | e :: o => (e.1, reread e.2) :: rereadFields o

end

section

variable [HashOrder]

theorem dumpElements_eq_map (l : List WValue) : dumpElements l = l.map dump := by
  induction l with
  | nil => rfl
  | cons w l ih => rw [dumpElements, ih, List.map_cons]

theorem dumpFields_eq_map (o : List (Bytes × WValue)) :
    dumpFields o = o.map (Prod.map id dump) := by
  induction o with
  | nil => rfl
  | cons e o ih =>
    rw [dumpFields, ih]
    rfl

theorem rereadElements_eq_map (l : List WValue) : rereadElements l = l.map reread := by
  induction l with
  | nil => rfl
  | cons w l ih => rw [rereadElements, ih, List.map_cons]

theorem rereadFields_eq_map (o : List (Bytes × WValue)) :
    rereadFields o = o.map (Prod.map id reread) := by
  induction o with
  | nil => rfl
  | cons e o ih =>
    rw [rereadFields, ih]
    rfl

/-- A list is printed element by element. -/
theorem dump_list (l : List WValue) :
    dump (.list l) = 91 :: (joinComma (l.map dump) ++ [93]) := by
  rw [dump, dumpElements_eq_map]

/-- An object is printed field by field, in order of iteration. -/
theorem dump_object (o : List (Bytes × WValue)) :
    dump (.object o) =
      123 :: (joinComma ((HashOrder.arrange o).map fun e => dumpField (e.1, dump e.2)) ++
        [125]) := by
  rw [dump, dumpFields_eq_map, HashOrder.map, List.map_map]
  rfl

theorem reread_list (l : List WValue) : reread (.list l) = .list (l.map reread) := by
  rw [reread, rereadElements_eq_map]

theorem reread_object (o : List (Bytes × WValue)) :
    reread (.object o) = .object ((HashOrder.arrange o).map (Prod.map id reread)) := by
  rw [reread, rereadFields_eq_map, HashOrder.map]

end

end Quarks
