import Quarks.Core.Remove
import Quarks.Json.WholeNumbers

/-!
# Counters and places

`increment` adds to a stored number, `incrementValue` adds to the fields of a
stored object, and `geoput` stores a value under the geohash of a place.
-/

namespace Quarks

open Basis

/-- `Core::get`. -/
def get (c : Config) (key : Bytes) : CoreM (Option Bytes) := do
  if c.cacheEnabled then return some (← getCached key)
  if c.dbOk then dbGet key else return none

/-- The part of `Core::increment` after a value has been read. -/
def addTo [HashOrder] (c : Config) (key : Bytes) (stepBy : ℤ) (val : Bytes) :
    CoreM (Bool × Bytes) :=
  match stoi val with
  | .ok value => do
    let r ← dumpPair c key (toString (int32 (value + stepBy)))
    return (true, r.2)
  | .error .invalidArgument => return (true,
      ascii "\x7b\"result\":false, \"error:\"Value to increment is not an integer\"\x7d")
  | .error .outOfRange =>
    return (true, ascii "\x7b\"result\":false, \"error\":\"Out of range\"\x7d")
  | .error _ => return (true, ascii "\x7b\"result\":false, \"error:\"Unknown\"\x7d")

/-- `Core::increment`. -/
def increment [HashOrder] (c : Config) (key : Bytes) (stepBy : ℤ) : CoreM (Bool × Bytes) :=
  withLock .core do
    match ← get c key with
    | none => return (false, ascii "\x7b\"result\":false\x7d")
    | some val => addTo c key stepBy val

/-- The loop of `Core::incrementValue` over the fields stored, and how many of them it
has added to. -/
def incrementFields (read xvalue : RValue) (existing : WValue) :
    List Bytes → WValue → ℤ → Except Failure (WValue × ℤ)
  | [], w, affected => return (w, affected)
  | e :: es, w, affected => do
    if ← xvalue.has e then
      let value ← (← read.field e).i
      let step ← (← xvalue.field e).i
      incrementFields read xvalue existing es
        (w.set e (.number (Double.ofInt (int32 (int32 value + step))))) (affected + 1)
    else incrementFields read xvalue existing es (w.set e (existing.take e)) affected

/-- The value that `Core::incrementValue` stores and the number of fields it has
added to, or `none` if the body gives no fields. -/
def incrementedValue [HashOrder] (x : RValue) (readValue : Bytes) :
    Except Failure (Option (WValue × ℤ)) := do
  let xvalue ← x.field (ascii "value")
  let putValue ← WValue.ofRValue xvalue
  let read ← checked (load readValue)
  let existingValues ← WValue.ofRValue read
  if putValue.keys = [] then return none
  return some (← incrementFields read xvalue existingValues existingValues.keys .null 0)

/-- `Core::incrementValue`. -/
def incrementValue [HashOrder] (c : Config) (body : Bytes) : CoreM (Bool × Bytes) :=
  match load body with
  | none => return (false, ascii "\x7b\"error\": \"Invalid put body\"\x7d")
  | some x => do
    let key ← ofExcept (pairKey x)
    let found ← getKeyValuePair c key
    match found.1 with
    | none =>
      return (false, ascii "\x7b\"result\":false,\"error\":\"key does not exist\"\x7d")
    | some readValue =>
      match ← ofExcept (incrementedValue x readValue) with
      | none => return (true, found.2)
      | some (w, affected) =>
        let r ← dumpPair c key (dump w)
        if r.1 then return (true, ascii "\x7b\"result\":" ++ toString affected ++ ascii "\x7d")
        return (true, r.2)

/-! ## Geohashes -/

/-- The double is greater than a fraction. -/
def Double.exceeds (d : Double) (num : ℤ) (den : ℕ) : Bool :=
  let p := powerFraction 2 d.exponent
  let m : ℤ := if d.negative then -(d.mantissa : ℤ) else d.mantissa
  num * p.2 < m * p.1 * den

/-- The double is less than a fraction. -/
def Double.fallsBelow (d : Double) (num : ℤ) (den : ℕ) : Bool :=
  let p := powerFraction 2 d.exponent
  let m : ℤ := if d.negative then -(d.mantissa : ℤ) else d.mantissa
  m * p.1 * den < num * p.2

/-- One coordinate of `sanitizelatlng`. -/
def sanitize (bound : ℤ) (d : Double) : Double :=
  if d.exceeds bound 1 then Double.ofInt bound
  else if d.fallsBelow (-bound) 1 then Double.ofInt (-bound)
  else d

/-- An interval of `geohash_encode`, with the two ends over a common denominator.
The ends are exact in a double, as their denominators are small powers of two. -/
structure Interval where
  low : ℤ
  high : ℤ
  den : ℕ

/-- The half of the interval that the coordinate lies in, and whether it is the upper one. -/
def Interval.halve (iv : Interval) (coord : Double) : Bool × Interval :=
  let mid := iv.low + iv.high
  if coord.exceeds mid (2 * iv.den) then (true, ⟨mid, 2 * iv.high, 2 * iv.den⟩)
  else (false, ⟨2 * iv.low, mid, 2 * iv.den⟩)

/-- `char_map`. -/
def charMap : Bytes := ascii "0123456789bcdefghjkmnpqrstuvwxyz"

/-- The loop of `geohash_encode` with the number of bits left, those of the next
character read so far, and the interval whose turn it is first. -/
def geohashLoop : ℕ → ℕ → ℕ → Double × Interval → Double × Interval → Bytes
  | 0, _, _, _, _ => []
  | bits + 1, count, hashChar, (coord, iv), other =>
    let (upper, iv) := iv.halve coord
    let hashChar := 2 * hashChar + if upper then 1 else 0
    if count = 4 then charMap.getD hashChar 0 :: geohashLoop bits 0 0 other (coord, iv)
    else geohashLoop bits (count + 1) hashChar other (coord, iv)

/-- `geohash_encode` for coordinates within their bounds. -/
def geohashEncode (lat lng : Double) (precision : ℕ) : Bytes :=
  geohashLoop (precision * 5) 0 0 (lng, ⟨-180, 180, 1⟩) (lat, ⟨-90, 90, 1⟩)

example : (lexicalCastDouble (ascii "57.64911")).bind (fun lat =>
    (lexicalCastDouble (ascii "10.40744")).map fun lng => geohashEncode lat lng 8) =
      some (ascii "u4pruydq") := by decide +kernel

/-- `x.has(name) ? x[name].d() : 0.0`. -/
def coordinate (x : RValue) (name : Bytes) : Except Failure Double := do
  if ← x.has name then (← x.field name).d else return Double.ofInt 0

/-- The key and the value that `Core::geoput` stores. -/
def geoPair (x : RValue) : Except Failure (Bytes × WValue) := do
  let w := WValue.null
  let (key, w) ← if ← x.has (ascii "key") then do
      let key ← (← x.field (ascii "key")).s
      pure (key, w.set (ascii "key") (.string key))
    else pure (([] : Bytes), w)
  let w ← if ← x.has (ascii "value") then do
      pure (w.set (ascii "value") (← WValue.ofRValue (← x.field (ascii "value"))))
    else pure w
  let lat ← coordinate x (ascii "lat")
  let lng ← coordinate x (ascii "lng")
  let lat := sanitize 90 lat
  let lng := sanitize 180 lng
  let hash := geohashEncode lat lng 8
  let w := ((w.set (ascii "lat") (.number lat)).set (ascii "lng") (.number lng)).set
    (ascii "hash") (.string hash)
  return (hash ++ ascii "_" ++ key, w)

/-- `Core::geoput`. -/
def geoput [HashOrder] (c : Config) (body : Bytes) : CoreM (Bool × Bytes) :=
  match load body with
  | none => return (false, ascii "\x7b\"error\": \"Invalid geoput body\"\x7d")
  | some x => do
    let p ← ofExcept (geoPair x)
    dumpPair c p.1 (dump p.2)

/-! ## What the functions do to the data -/

variable [HashOrder] {faults : Faults} {I E : Node → Prop} (c : Config)

/-- Where `get` finds the value of a key. -/
def source (c : Config) (n : Node) : Store := if c.cacheEnabled then n.cache else n.db

/-- `_GetCached` puts an absent key into the cache. -/
def Node.missed (key : Bytes) (n : Node) : Node := { n with cache := n.cache.insert key [] }

omit [HashOrder] in
/-- `get` returns a value that is stored, or in cached mode the empty string. -/
theorem get_triple {J : Option Bytes → Node → Prop} {key : Bytes}
    (hfound : ∀ n val, I n → (source c n).find? key = some val → J (some val) n)
    (hnone : c.cacheEnabled = false → ∀ n, I n → (source c n).find? key = none ∨
      c.dbOk = false ∨ (∃ i, faults i (.get key) = true) → J none n)
    (hmiss : c.cacheEnabled = true → ∀ n, I n → key ∉ n.cache → J (some []) (n.missed key)) :
    DataTriple faults I (get c key) J E := by
  unfold get
  split
  · next hcached =>
    refine DataTriple.bind (M := fun val => J (some val)) ?_ fun _ => DataTriple.pure fun _ hn => hn
    intro w hw
    change J (some (handle faults (.getCached key) w).1) (handle faults (.getCached key) w).2.node
    simp only [handle]
    split
    · next val hval => exact hfound w.node val hw (by simpa [source, hcached] using hval)
    · next hval =>
      exact hmiss hcached w.node hw fun hmem => by
        obtain ⟨v, hv⟩ := OrderedMap.mem_iff.mp hmem
        rw [hval] at hv
        cases hv
  · next hcached =>
    rw [Bool.not_eq_true] at hcached
    split
    · refine DataTriple.mono DataTriple.dbGet (fun _ h => h) ?_ (fun _ h => h)
      rintro (_ | val) n ⟨hn, h | ⟨h, hi⟩⟩
      · exact hnone hcached n hn (Or.inl (by simpa [source, hcached] using h.symm))
      · exact hnone hcached n hn (Or.inr (Or.inr hi))
      · exact hfound n val hn (by simpa [source, hcached] using h.symm)
      · cases h
    · next hdb =>
      exact DataTriple.pure fun n hn => hnone hcached n hn (Or.inr (Or.inl (by simpa using hdb)))

theorem addTo_triple {J : Node → Prop} {key val : Bytes} {stepBy : ℤ} (hskip : ∀ n, I n → J n)
    (hput : ∀ n z, I n → stoi val = .ok z →
      J (n.stored c key (toString (int32 (z + stepBy))))) :
    DataTriple faults I (addTo c key stepBy val) (fun _ => J) E := by
  unfold addTo
  split
  · next z hz =>
    exact DataTriple.bind (M := fun _ => J) (dumpPair_triple c hskip fun n hn => hput n z hn hz)
      fun _ => DataTriple.pure fun _ hn => hn
  all_goals exact DataTriple.pure hskip

/-- `increment` stores the decimal text of a number. -/
theorem increment_triple {J : Node → Prop} {key : Bytes} {stepBy : ℤ} (hskip : ∀ n, I n → J n)
    (hmiss : c.cacheEnabled = true → ∀ n, I n → key ∉ n.cache → J (n.missed key))
    (hput : ∀ n val z, I n → (source c n).find? key = some val → stoi val = .ok z →
      J (n.stored c key (toString (int32 (z + stepBy))))) :
    DataTriple faults I (increment c key stepBy) (fun _ => J) E := by
  refine DataTriple.withLock (DataTriple.bind (M := fun found n =>
    (∃ val, found = some val ∧ I n ∧ (source c n).find? key = some val) ∨
      J n ∧ (found = none ∨ found = some [])) (get_triple c ?_ ?_ ?_) fun found => ?_)
  · exact fun n val hn hval => Or.inl ⟨val, rfl, hn, hval⟩
  · exact fun _ n hn _ => Or.inr ⟨hskip n hn, Or.inl rfl⟩
  · exact fun hcached n hn hmem => Or.inr ⟨hmiss hcached n hn hmem, Or.inr rfl⟩
  cases found with
  | none =>
    refine DataTriple.pure ?_
    rintro n (⟨val, h, -⟩ | hn)
    · cases h
    · exact hn.1
  | some val =>
    refine addTo_triple c ?_ ?_
    · rintro n (⟨_, -, hn, -⟩ | hn)
      · exact hskip n hn
      · exact hn.1
    · rintro n z (⟨val', h, hn, hval⟩ | ⟨-, h | h⟩) hz
      · cases h
        exact hput n val z hn hval hz
      · cases h
      · -- the empty string is not a number
        cases h
        cases hz

/-- `incrementValue` stores the object it has found, with some fields changed. -/
theorem incrementValue_triple {J : Node → Prop} {body : Bytes} (hskip : ∀ n, I n → J n)
    (hput : ∀ n x key readValue w affected, I n → load body = some x → pairKey x = .ok key →
      n.db.find? key = some readValue → incrementedValue x readValue = .ok (some (w, affected)) →
      J (n.stored c key (dump w))) :
    DataTriple faults I (incrementValue c body) (fun _ => J) J := by
  unfold incrementValue
  split
  · exact DataTriple.pure hskip
  next x hx =>
  refine DataTriple.ofExcept hskip fun key hkey => ?_
  refine DataTriple.bind (getKeyValuePair_triple c) fun found => ?_
  split
  · exact DataTriple.pure fun n hn => hskip n hn.1
  next readValue hfound =>
  refine DataTriple.ofExcept (fun n hn => hskip n hn.1) fun r hr => ?_
  split
  · exact DataTriple.pure fun n hn => hskip n hn.1
  next w affected =>
  refine DataTriple.bind (M := fun _ => J) (dumpPair_triple c (fun n hn => hskip n hn.1) ?_)
    fun r => ?_
  · rintro n ⟨hn, hread, hclosed⟩
    refine hput n x key readValue w affected hn hx hkey ?_ hr
    rw [hfound] at hread hclosed
    cases hdb : c.dbOk with
    | false => cases hclosed hdb
    | true =>
      rcases hread hdb with h | ⟨h, -⟩
      · exact h.symm
      · cases h
  · split <;> exact DataTriple.pure fun _ hn => hn

/-- `geoput` stores the dump of an object. -/
theorem geoput_triple {J : Node → Prop} {body : Bytes} (hskip : ∀ n, I n → J n)
    (hput : ∀ n x key w, I n → load body = some x → geoPair x = .ok (key, w) →
      J (n.stored c key (dump w))) :
    DataTriple faults I (geoput c body) (fun _ => J) J := by
  unfold geoput
  split
  · exact DataTriple.pure hskip
  next x hx =>
  refine DataTriple.ofExcept hskip fun p hp => ?_
  exact dumpPair_triple c hskip fun n hn => hput n x p.1 p.2 hn hx hp

end Quarks
