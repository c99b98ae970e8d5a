import Quarks.Bytes
import Quarks.Basis.Traced

/-!
# Base64

`Encode` takes groups of three bytes as long as its index is below the length minus two, which
for a text of less than two bytes is a number close to 2^64: it then reads behind the end. From
two bytes on it writes four characters for three bytes, and `Decode` gives the bytes back.
-/

namespace Quarks

open Basis

/-! ## The code -/

/-- What `Encode` and `Decode` do in memory: they read a character of their argument, and write
one of the text that they return. -/
inductive BufferEvent
  | read (index : ℕ)
  | write (index : ℕ)
  deriving DecidableEq

/-- `s[index]`. The character behind the last one is a zero; further behind none must be read. -/
def readChar (s : Bytes) (index : ℕ) : Traced BufferEvent UInt8 := do
  .emit (.read index)
  if index ≤ s.length then pure (s.getD index 0) else .goWrong

/-- A character is written over one of the text. -/
def writeChar (s : Bytes) (index : ℕ) (c : UInt8) : Traced BufferEvent Bytes := do
  .emit (.write index)
  if index < s.length then pure (s.set index c) else .goWrong

/-- A `char`, which is signed, as an `int`. -/
def intOf (c : UInt8) : Int32 := c.toInt8.toInt32

def sEncodingTable : Bytes :=
  ascii "ABCDEFGHIJKLMNOPQRSTUVWXYZabcdefghijklmnopqrstuvwxyz0123456789+/"

def encodingChar (index : Int32) : UInt8 := sEncodingTable.getD index.toInt.toNat 0

/-- The first six bits of a group. -/
def firstIndex (a : UInt8) : Int32 := intOf a >>> 2 &&& 0x3F

/-- The next six bits: the last two of the first byte and four of the second. -/
def secondIndex (a b : UInt8) : Int32 := (intOf a &&& 0x3) <<< 4 ||| (intOf b &&& 0xF0) >>> 4

def thirdIndex (b c : UInt8) : Int32 := (intOf b &&& 0xF) <<< 2 ||| (intOf c &&& 0xC0) >>> 6

def fourthIndex (c : UInt8) : Int32 := intOf c &&& 0x3F

/-- One turn of the loop of `Encode`: three bytes from `i` on are read, four characters from `p`
on are written. -/
def encodeTurn (data ret : Bytes) (i p : ℕ) : Traced BufferEvent Bytes := do
  let ret ← writeChar ret p (encodingChar (firstIndex (← readChar data i)))
  let ret ← writeChar ret (p + 1)
    (encodingChar (secondIndex (← readChar data i) (← readChar data (sizeT (i + 1)))))
  let ret ← writeChar ret (p + 2)
    (encodingChar (thirdIndex (← readChar data (sizeT (i + 1))) (← readChar data (sizeT (i + 2)))))
  writeChar ret (p + 3) (encodingChar (fourthIndex (← readChar data (sizeT (i + 2)))))

/-- What follows the loop of `Encode`: one or two bytes that are left, and the padding. -/
def encodeRest (data : Bytes) (inLen : ℕ) (ret : Bytes) (i p : ℕ) : Traced BufferEvent Bytes := do
  if i < inLen then
    let ret ← writeChar ret p (encodingChar (firstIndex (← readChar data i)))
    if i = sizeT (inLen - 1) then
      let ret ← writeChar ret (p + 1) (encodingChar ((intOf (← readChar data i) &&& 0x3) <<< 4))
      let ret ← writeChar ret (p + 2) 61
      writeChar ret (p + 3) 61
    else
      let ret ← writeChar ret (p + 1)
        (encodingChar (secondIndex (← readChar data i) (← readChar data (sizeT (i + 1)))))
      let ret ← writeChar ret (p + 2)
        (encodingChar ((intOf (← readChar data (sizeT (i + 1))) &&& 0xF) <<< 2))
      writeChar ret (p + 3) 61
  else pure ret

/-- The loop of `Encode` and what follows it. The bound on its turns is one that it does not
reach: it leaves the loop, or goes wrong behind the end of the text. -/
def encodeLoop (data : Bytes) (inLen : ℕ) : ℕ → Bytes → ℕ → ℕ → Traced BufferEvent Bytes
  | 0, _, _, _ => .goWrong
  | fuel + 1, ret, i, p =>
    if i < sizeT (inLen - 2) then do
      let ret ← encodeTurn data ret i p
      encodeLoop data inLen fuel ret (sizeT (i + 3)) (p + 4)
    else encodeRest data inLen ret i p

/-- `Base64::Encode`. -/
def encode (data : Bytes) : Traced BufferEvent Bytes :=
  let inLen := sizeT data.length
  let outLen := sizeT (4 * ((sizeT (inLen + 2) / 3 : ℕ) : ℤ))
  encodeLoop data inLen (data.length + 1) (List.replicate outLen 0) 0 0

def kDecodingTable : List ℕ :=
  List.replicate 43 64 ++ [62, 64, 64, 64, 63] ++ List.range' 52 10 ++ List.replicate 7 64 ++
    List.range 26 ++ List.replicate 6 64 ++ List.range' 26 26 ++ List.replicate 133 64

/-- One of the four values of a turn of `Decode`. A `char` from 128 on is a negative `int`, and
would be looked up in front of the table. -/
def decodingValue (input : Bytes) (i : ℕ) : Traced BufferEvent ℕ := do
  if (← readChar input i) = 61 then pure 0
  else
    let c ← readChar input i
    if c < 128 then pure (kDecodingTable.getD c.toNat 0) else .goWrong

/-- `if (j < out_len) out[j++] = c`. -/
def putChar (outLen : ℕ) (out : Bytes) (j : ℕ) (c : UInt8) : Traced BufferEvent (Bytes × ℕ) := do
  if j < outLen then pure (← writeChar out j c, sizeT (j + 1)) else pure (out, j)

/-- One turn of the loop of `Decode`: four characters from `i` on are read, and up to three bytes
written. The sum of the four values is an `uint32_t`. -/
def decodeTurn (input : Bytes) (outLen : ℕ) (out : Bytes) (i j : ℕ) :
    Traced BufferEvent (Bytes × ℕ) := do
  let a ← decodingValue input i
  let b ← decodingValue input (sizeT (i + 1))
  let c ← decodingValue input (sizeT (i + 2))
  let d ← decodingValue input (sizeT (i + 3))
  let triple := ((a <<< (3 * 6)) + (b <<< (2 * 6)) + (c <<< (1 * 6)) + (d <<< (0 * 6))) % 2 ^ 32
  let out ← putChar outLen out j (UInt8.ofNat (triple >>> (2 * 8) &&& 0xFF))
  let out ← putChar outLen out.1 out.2 (UInt8.ofNat (triple >>> (1 * 8) &&& 0xFF))
  putChar outLen out.1 out.2 (UInt8.ofNat (triple >>> (0 * 8) &&& 0xFF))

/-- The loop of `Decode`, with a bound on its turns that it does not reach. -/
def decodeLoop (input : Bytes) (inLen outLen : ℕ) : ℕ → Bytes → ℕ → ℕ → Traced BufferEvent Bytes
  | 0, _, _, _ => .goWrong
  | fuel + 1, out, i, j =>
    if i < inLen then do
      let out ← decodeTurn input outLen out i j
      decodeLoop input inLen outLen fuel out.1 (sizeT (i + 4)) out.2
    else pure out

/-- `Base64::Decode`. -/
def decode (input : Bytes) : Traced BufferEvent Bytes := do
  let inLen := sizeT input.length
  if inLen % 4 ≠ 0 then pure (ascii "Input data size is not a multiple of 4")
  else
    let outLen := inLen / 4 * 3
    let outLen := if (← readChar input (sizeT (inLen - 1))) = 61 then sizeT (outLen - 1) else outLen
    let outLen := if (← readChar input (sizeT (inLen - 2))) = 61 then sizeT (outLen - 1) else outLen
    decodeLoop input inLen outLen (input.length + 1) (List.replicate outLen 0) 0 0

/-! ## Groups of six bits -/

/-- The character for six bits. -/
def sextetChar (n : ℕ) : UInt8 := sEncodingTable.getD n 0

private theorem forall_byte {P : UInt8 → Prop} (h : ∀ n < 256, P (UInt8.ofNat n)) (c : UInt8) :
    P c := by
  have hc := h c.toNat c.toNat_lt
  rwa [UInt8.ofNat_toNat] at hc

/-- Two parts of six bits are joined where neither overlaps the other. -/
private theorem toNat_or :
    (∀ x < 4, ∀ y < 16, (Int32.ofNat (x * 16) ||| Int32.ofNat y).toInt.toNat = x * 16 + y) ∧
    ∀ x < 16, ∀ y < 4, (Int32.ofNat (x * 4) ||| Int32.ofNat y).toInt.toNat = x * 4 + y := by
  decide +kernel

/-- The parts of a byte that the masks and shifts cut out. -/
private theorem byteParts (c : UInt8) :
    ((intOf c &&& 0x3) <<< 4 = Int32.ofNat (c.toNat % 4 * 16) ∧
      (intOf c &&& 0xF) <<< 2 = Int32.ofNat (c.toNat % 16 * 4) ∧
      (intOf c &&& 0xF0) >>> 4 = Int32.ofNat (c.toNat / 16) ∧
      (intOf c &&& 0xC0) >>> 6 = Int32.ofNat (c.toNat / 64)) ∧
    (firstIndex c).toInt.toNat = c.toNat / 4 ∧ (fourthIndex c).toInt.toNat = c.toNat % 64 := by
  revert c
  exact forall_byte (by decide +kernel)

private theorem toNat_alone : ∀ n < 64, (Int32.ofNat n).toInt.toNat = n := by decide +kernel

section

variable (a b c : UInt8)

theorem encodingChar_first : encodingChar (firstIndex a) = sextetChar (a.toNat / 4) := by
  rw [encodingChar, (byteParts a).2.1, sextetChar]

theorem encodingChar_second :
    encodingChar (secondIndex a b) = sextetChar (a.toNat % 4 * 16 + b.toNat / 16) := by
  obtain ⟨hlow, -⟩ := (byteParts a).1
  obtain ⟨-, -, hhigh, -⟩ := (byteParts b).1
  have hb := b.toNat_lt
  rw [encodingChar, secondIndex, hlow, hhigh,
    toNat_or.1 _ (Nat.mod_lt _ (by decide)) _ (by omega), sextetChar]

theorem encodingChar_second_alone :
    encodingChar ((intOf a &&& 0x3) <<< 4) = sextetChar (a.toNat % 4 * 16) := by
  rw [encodingChar, (byteParts a).1.1, toNat_alone _ (by omega), sextetChar]

theorem encodingChar_third :
    encodingChar (thirdIndex b c) = sextetChar (b.toNat % 16 * 4 + c.toNat / 64) := by
  obtain ⟨-, hlow, -, -⟩ := (byteParts b).1
  obtain ⟨-, -, -, hhigh⟩ := (byteParts c).1
  have hc := c.toNat_lt
  rw [encodingChar, thirdIndex, hlow, hhigh,
    toNat_or.2 _ (Nat.mod_lt _ (by decide)) _ (by omega), sextetChar]

theorem encodingChar_third_alone :
    encodingChar ((intOf b &&& 0xF) <<< 2) = sextetChar (b.toNat % 16 * 4) := by
  rw [encodingChar, (byteParts b).1.2.1, toNat_alone _ (by omega), sextetChar]

theorem encodingChar_fourth : encodingChar (fourthIndex c) = sextetChar (c.toNat % 64) := by
  rw [encodingChar, (byteParts c).2.2, sextetChar]

end

/-- The table of `Decode` gives back the six bits; their character is no padding. -/
theorem decoding_sextetChar : ∀ n < 64, sextetChar n ≠ 61 ∧ sextetChar n < 128 ∧
    kDecodingTable.getD (sextetChar n).toNat 0 = n := by
  decide +kernel

/-- The text group by group. -/
def encodeGroups : Bytes → Bytes
  | [] => []
  | [a] => [sextetChar (a.toNat / 4), sextetChar (a.toNat % 4 * 16), 61, 61]
  | [a, b] => [sextetChar (a.toNat / 4), sextetChar (a.toNat % 4 * 16 + b.toNat / 16),
      sextetChar (b.toNat % 16 * 4), 61]
  | a :: b :: c :: s => sextetChar (a.toNat / 4) :: sextetChar (a.toNat % 4 * 16 + b.toNat / 16) ::
      sextetChar (b.toNat % 16 * 4 + c.toNat / 64) :: sextetChar (c.toNat % 64) :: encodeGroups s

theorem length_encodeGroups (s : Bytes) :
    (encodeGroups s).length = 4 * ((s.length + 2) / 3) := by
  induction s using encodeGroups.induct with
  | case1 => simp [encodeGroups]
  | case2 a => simp [encodeGroups]
  | case3 a b => simp [encodeGroups]
  | case4 a b c s ih =>
    simp only [encodeGroups, List.length_cons, ih]
    omega

/-! ## Runs over buffers -/

def BufferEvent.isWrite : BufferEvent → Bool
  | .read _ => false
  | .write _ => true

/-- The run ends with a result after so many writes, and reads no place from a length on. -/
structure Works {α : Type} (len : ℕ) (r : Traced BufferEvent α) (n : ℕ) (a : α) : Prop where
  result : r.result = some a
  writes : r.events.countP BufferEvent.isWrite = n
  reads : ∀ i, BufferEvent.read i ∈ r.events → i < len

section

variable {α β : Type} {len n m : ℕ} {a : α} {b : β} {r : Traced BufferEvent α}
  {f : α → Traced BufferEvent β}

theorem works_pure : Works len (pure a : Traced BufferEvent α) 0 a :=
  ⟨rfl, rfl, fun i hi => by cases hi⟩

theorem Works.bind (h : Works len r n a) (hf : Works len (f a) m b) :
    Works len (r >>= f) (n + m) b := by
  have hevents : (r >>= f).events = r.events ++ (f a).events := by
    change (r.bind f).events = _
    simp only [Traced.bind, h.result]
  refine ⟨?_, ?_, fun i hi => ?_⟩
  · rw [Traced.result_bind, h.result]
    exact hf.result
  · rw [hevents, List.countP_append, h.writes, hf.writes]
  · rw [hevents] at hi
    rcases List.mem_append.mp hi with hi | hi
    · exact h.reads i hi
    · exact hf.reads i hi

theorem Works.read_bind (h : Works len r 0 a) (hf : Works len (f a) m b) :
    Works len (r >>= f) m b := by
  have hbind := h.bind hf
  rwa [Nat.zero_add] at hbind

theorem Works.write_bind (h : Works len r 1 a) (hf : Works len (f a) m b) :
    Works len (r >>= f) (m + 1) b := by
  have hbind := h.bind hf
  rwa [Nat.add_comm] at hbind

/-- A read of a place where the character is known. -/
theorem works_readChar {s rest : Bytes} {c : UInt8} {i : ℕ} (hi : i < len)
    (h : s.drop i = c :: rest) : Works len (readChar s i) 0 c := by
  have hlt : i < s.length := by
    by_contra hge
    rw [List.drop_eq_nil_of_le (by omega)] at h
    cases h
  have hget : s.getD i 0 = c := by
    rw [List.drop_eq_getElem_cons hlt] at h
    rw [List.getD_eq_getElem?_getD, List.getElem?_eq_getElem hlt]
    exact (List.cons.inj h).1
  have hemit : Works len (.emit (.read i)) 0 () :=
    ⟨rfl, rfl, fun j hj => by cases List.mem_singleton.mp hj; exact hi⟩
  unfold readChar
  refine hemit.read_bind ?_
  rw [if_pos hlt.le, hget]
  exact works_pure

/-- A write over the character behind those that are written already. -/
theorem works_writeChar {u v out : Bytes} {x c : UInt8} {p : ℕ} (hp : p = u.length)
    (hout : out = (u ++ [c]) ++ v) : Works len (writeChar (u ++ x :: v) p c) 1 out := by
  have hemit : Works len (.emit (.write p)) 1 () :=
    ⟨rfl, rfl, fun j hj => by cases List.mem_singleton.mp hj⟩
  have hset : (u ++ x :: v).set p c = out := by
    simp [hp, hout]
  unfold writeChar
  refine hemit.write_bind ?_
  rw [if_pos (by simp [hp]), hset]
  exact works_pure

end

/-! ## The loop of the encoder -/

theorem sizeT_eq {z : ℤ} {n : ℕ} (h : z = n) (hn : n < 2 ^ 64) : sizeT z = n := by
  unfold sizeT
  omega

theorem sizeT_natCast {n : ℕ} (h : n < 2 ^ 64) : sizeT n = n := sizeT_eq rfl h

theorem sizeT_pred (n : ℕ) (h : 0 < n) (hn : n < 2 ^ 64) : sizeT (n - 1) = n - 1 :=
  sizeT_eq (by omega) (by omega)

/-- What is left of a text from some places further on. -/
theorem drop_of_drop {s u v : Bytes} {i n : ℕ} (h : s.drop i = u ++ v) (hn : n = u.length) :
    s.drop (i + n) = v := by
  rw [← List.drop_drop, h, hn, List.drop_left]

section

variable {data : Bytes}

theorem encodeTurn_works {i p : ℕ} {a b c : UInt8} {rest u v : Bytes} (hlen : data.length < 2 ^ 64)
    (hi : data.drop i = a :: b :: c :: rest) (hp : p = u.length) :
    Works data.length (encodeTurn data (u ++ 0 :: 0 :: 0 :: 0 :: v) i p) 4
      (u ++ [sextetChar (a.toNat / 4), sextetChar (a.toNat % 4 * 16 + b.toNat / 16),
        sextetChar (b.toNat % 16 * 4 + c.toNat / 64), sextetChar (c.toNat % 64)] ++ v) := by
  have hbound := congrArg List.length hi
  simp only [List.length_drop, List.length_cons] at hbound
  have ha : Works data.length (readChar data i) 0 a := works_readChar (by omega) hi
  have hone : sizeT (i + 1) = i + 1 := sizeT_eq (by omega) (by omega)
  have hb : Works data.length (readChar data (sizeT (i + 1))) 0 b := by
    rw [hone]
    exact works_readChar (by omega) (drop_of_drop (u := [a]) hi rfl)
  have htwo : sizeT (i + 2) = i + 2 := sizeT_eq (by omega) (by omega)
  have hc : Works data.length (readChar data (sizeT (i + 2))) 0 c := by
    rw [htwo]
    exact works_readChar (by omega) (drop_of_drop (u := [a, b]) hi rfl)
  unfold encodeTurn
  refine ha.read_bind ?_
  rw [encodingChar_first]
  refine (works_writeChar hp rfl).write_bind (ha.read_bind (hb.read_bind ?_))
  rw [encodingChar_second]
  refine (works_writeChar (by simp [hp]) rfl).write_bind (hb.read_bind (hc.read_bind ?_))
  rw [encodingChar_third]
  refine (works_writeChar (by simp [hp]) rfl).write_bind (hc.read_bind ?_)
  rw [encodingChar_fourth]
  exact works_writeChar (by simp [hp]) (by simp)

theorem encodeRest_works {i p : ℕ} {rest u : Bytes} (hlen : data.length < 2 ^ 64)
    (hi : data.drop i = rest) (hle : i ≤ data.length) (hshort : rest.length < 3)
    (hp : p = u.length) :
    Works data.length (encodeRest data data.length
      (u ++ List.replicate (encodeGroups rest).length 0) i p) (encodeGroups rest).length
      (u ++ encodeGroups rest) := by
  have hbound := congrArg List.length hi
  rw [List.length_drop] at hbound
  have hread : ∀ {c s}, rest = c :: s → Works data.length (readChar data i) 0 c := by
    intro c s hrest
    rw [hrest, List.length_cons] at hbound
    exact works_readChar (by omega) (hi.trans hrest)
  unfold encodeRest
  match rest, hshort with
  | [], _ =>
    rw [if_neg (by simp at hbound; omega)]
    simpa [encodeGroups] using works_pure
  | [a], _ =>
    rw [List.length_singleton] at hbound
    have ha := hread rfl
    have hend : i = sizeT (data.length - 1) := by
      rw [sizeT_pred _ (by omega) (by omega)]
      omega
    simp only [encodeGroups, List.length_cons, List.length_nil, List.replicate]
    rw [if_pos (by omega)]
    refine ha.read_bind ?_
    rw [encodingChar_first]
    refine (works_writeChar hp rfl).write_bind ?_
    rw [if_pos hend]
    refine ha.read_bind ?_
    rw [encodingChar_second_alone]
    refine (works_writeChar (by simp [hp]) rfl).write_bind
      ((works_writeChar (by simp [hp]) rfl).write_bind ?_)
    exact works_writeChar (by simp [hp]) (by simp)
  | [a, b], _ =>
    simp only [List.length_cons, List.length_nil] at hbound
    have ha := hread rfl
    have hone : sizeT (i + 1) = i + 1 := sizeT_eq (by omega) (by omega)
    have hb : Works data.length (readChar data (sizeT (i + 1))) 0 b := by
      rw [hone]
      exact works_readChar (by omega) (drop_of_drop (u := [a]) hi rfl)
    have hend : i ≠ sizeT (data.length - 1) := by
      rw [sizeT_pred _ (by omega) (by omega)]
      omega
    simp only [encodeGroups, List.length_cons, List.length_nil, List.replicate]
    rw [if_pos (by omega)]
    refine ha.read_bind ?_
    rw [encodingChar_first]
    refine (works_writeChar hp rfl).write_bind ?_
    rw [if_neg hend]
    refine ha.read_bind (hb.read_bind ?_)
    rw [encodingChar_second]
    refine (works_writeChar (by simp [hp]) rfl).write_bind (hb.read_bind ?_)
    rw [encodingChar_third_alone]
    refine (works_writeChar (by simp [hp]) rfl).write_bind ?_
    exact works_writeChar (by simp [hp]) (by simp)

theorem sizeT_bound (hlen : data.length < 2 ^ 64) (htwo : 2 ≤ data.length) :
    sizeT (data.length - 2) = data.length - 2 := by
  exact sizeT_eq (by omega) (by omega)

/-- From a length of two on, the loop is left where fewer than three bytes are left. -/
theorem encodeLoop_ends {fuel i p : ℕ} {rest u : Bytes} (hlen : data.length < 2 ^ 64)
    (htwo : 2 ≤ data.length) (hi : data.drop i = rest) (hle : i ≤ data.length)
    (hshort : rest.length < 3) (hp : p = u.length) :
    Works data.length (encodeLoop data data.length (fuel + 1)
      (u ++ List.replicate (encodeGroups rest).length 0) i p) (encodeGroups rest).length
      (u ++ encodeGroups rest) := by
  have hleft := congrArg List.length hi
  rw [List.length_drop] at hleft
  rw [encodeLoop, sizeT_bound hlen htwo, if_neg (by omega)]
  exact encodeRest_works hlen hi hle hshort hp

/-- From a length of two on, the loop takes the groups of three bytes that are left. -/
theorem encodeLoop_works {fuel i p : ℕ} {rest u : Bytes} (hlen : data.length < 2 ^ 64)
    (htwo : 2 ≤ data.length) (hi : data.drop i = rest) (hle : i ≤ data.length)
    (hfuel : rest.length ≤ fuel) (hp : p = u.length) :
    Works data.length (encodeLoop data data.length (fuel + 1)
      (u ++ List.replicate (encodeGroups rest).length 0) i p) (encodeGroups rest).length
      (u ++ encodeGroups rest) := by
  induction rest using encodeGroups.induct generalizing fuel i p u with
  | case1 => exact encodeLoop_ends hlen htwo hi hle (by simp) hp
  | case2 a => exact encodeLoop_ends hlen htwo hi hle (by simp) hp
  | case3 a b => exact encodeLoop_ends hlen htwo hi hle (by simp) hp
  | case4 a b c s ih =>
    have hleft := congrArg List.length hi
    simp only [List.length_drop, List.length_cons] at hleft hfuel
    obtain ⟨fuel, rfl⟩ := Nat.exists_eq_add_of_le hfuel
    have hnext : sizeT (i + 3) = i + 3 := sizeT_eq (by omega) (by omega)
    have hturn := encodeTurn_works (v := List.replicate (encodeGroups s).length 0) hlen hi hp
    have hrest := @ih (s.length + 2 + fuel) (i + 3) (p + 4) (u ++ [sextetChar (a.toNat / 4),
      sextetChar (a.toNat % 4 * 16 + b.toNat / 16), sextetChar (b.toNat % 16 * 4 + c.toNat / 64),
      sextetChar (c.toNat % 64)]) (drop_of_drop (u := [a, b, c]) hi rfl) (by omega) (by omega)
      (by simp [hp])
    rw [encodeLoop, sizeT_bound hlen htwo, if_pos (by omega), hnext, encodeGroups]
    have hfuel : s.length + 1 + 1 + 1 + fuel = s.length + 2 + fuel + 1 := by omega
    rw [hfuel]
    have hboth := hturn.bind (f := fun ret => encodeLoop data data.length (s.length + 2 + fuel + 1)
      ret (i + 3) (p + 4)) hrest
    rw [List.append_assoc, Nat.add_comm 4] at hboth
    simp only [List.length_cons, List.replicate_succ]
    exact hboth

/-- From two bytes on, a text is encoded within its bounds, with four characters for three bytes,
as long as their number is a `size_t`. -/
theorem encode_works (htwo : 2 ≤ data.length) (hsize : 4 * ((data.length + 2) / 3) < 2 ^ 64) :
    Works data.length (encode data) (4 * ((data.length + 2) / 3)) (encodeGroups data) := by
  have hlen : data.length < 2 ^ 64 := by omega
  have hplus : sizeT (data.length + 2) = data.length + 2 := sizeT_eq (by omega) (by omega)
  have hout : sizeT (4 * (((data.length + 2) / 3 : ℕ) : ℤ)) = (encodeGroups data).length := by
    rw [← Nat.cast_ofNat, ← Nat.cast_mul, sizeT_natCast hsize, length_encodeGroups]
  unfold encode
  rw [← length_encodeGroups]
  simp only [sizeT_natCast hlen, hplus, hout]
  exact encodeLoop_works (u := []) hlen htwo rfl (Nat.zero_le _) le_rfl rfl

end

/-! ## The loop of the decoder -/

section

variable {input : Bytes} {i : ℕ}

theorem decodingValue_works {n : ℕ} {rest : Bytes} (hn : n < 64)
    (h : input.drop i = sextetChar n :: rest) :
    Works input.length (decodingValue input i) 0 n := by
  obtain ⟨hpad, hsmall, htable⟩ := decoding_sextetChar n hn
  have hi : i < input.length := by
    have hlen := congrArg List.length h
    rw [List.length_drop, List.length_cons] at hlen
    omega
  have hread := works_readChar hi h
  refine hread.read_bind ?_
  rw [if_neg hpad]
  refine hread.read_bind ?_
  rw [if_pos hsmall, htable]
  exact works_pure

theorem decodingValue_pad {rest : Bytes} (h : input.drop i = 61 :: rest) :
    Works input.length (decodingValue input i) 0 0 := by
  have hi : i < input.length := by
    have hlen := congrArg List.length h
    rw [List.length_drop, List.length_cons] at hlen
    omega
  refine (works_readChar hi h).read_bind ?_
  rw [if_pos rfl]
  exact works_pure

/-- A byte is written over the next one of the text. -/
theorem putChar_works {len outLen j : ℕ} {u v out : Bytes} {x c : UInt8} (hlt : j < outLen)
    (hbound : outLen < 2 ^ 64) (hj : j = u.length) (hout : out = (u ++ [c]) ++ v) :
    Works len (putChar outLen (u ++ x :: v) j c) 1 (out, j + 1) := by
  have hnext : sizeT (j + 1) = j + 1 := sizeT_eq (by omega) (by omega)
  unfold putChar
  rw [if_pos hlt]
  refine (works_writeChar hj hout).write_bind ?_
  rw [hnext]
  exact works_pure

/-- Behind the end of the text no byte is written. -/
theorem putChar_end {len outLen j : ℕ} {out : Bytes} {c : UInt8} (hge : outLen ≤ j) :
    Works len (putChar outLen out j c) 0 (out, j) := by
  unfold putChar
  rw [if_neg (by omega)]
  exact works_pure

/-- The three bytes that four values of six bits hold. -/
theorem triple_bytes {n₁ n₂ n₃ n₄ : ℕ} {a b c : UInt8}
    (h : n₁ * 2 ^ 18 + n₂ * 2 ^ 12 + n₃ * 2 ^ 6 + n₄ =
      a.toNat * 2 ^ 16 + b.toNat * 2 ^ 8 + c.toNat) :
    let triple :=
      ((n₁ <<< (3 * 6)) + (n₂ <<< (2 * 6)) + (n₃ <<< (1 * 6)) + (n₄ <<< (0 * 6))) % 2 ^ 32
    UInt8.ofNat (triple >>> (2 * 8) &&& 0xFF) = a ∧ UInt8.ofNat (triple >>> (1 * 8) &&& 0xFF) = b ∧
      UInt8.ofNat (triple >>> (0 * 8) &&& 0xFF) = c := by
  have ha := a.toNat_lt
  have hb := b.toNat_lt
  have hc := c.toNat_lt
  have hbyte : ∀ {x : UInt8} {n : ℕ}, n % 256 = x.toNat → UInt8.ofNat (n &&& 0xFF) = x := by
    intro x n hx
    have hmask : n &&& 0xFF = n % 256 := Nat.and_two_pow_sub_one_eq_mod n 8
    rw [hmask, hx, UInt8.ofNat_toNat]
  simp only [Nat.shiftLeft_eq, Nat.shiftRight_eq_div_pow]
  refine ⟨hbyte ?_, hbyte ?_, hbyte ?_⟩ <;> omega

/-- A turn whose four values hold three bytes goes on as the writes of these bytes do. -/
theorem decodeTurn_works {n₁ n₂ n₃ n₄ m outLen j : ℕ} {a b c : UInt8} {out : Bytes}
    {out' : Bytes × ℕ} (hlen : i + 3 < input.length) (hsize : input.length < 2 ^ 64)
    (h₁ : Works input.length (decodingValue input i) 0 n₁)
    (h₂ : Works input.length (decodingValue input (i + 1)) 0 n₂)
    (h₃ : Works input.length (decodingValue input (i + 2)) 0 n₃)
    (h₄ : Works input.length (decodingValue input (i + 3)) 0 n₄)
    (h : n₁ * 2 ^ 18 + n₂ * 2 ^ 12 + n₃ * 2 ^ 6 + n₄ =
      a.toNat * 2 ^ 16 + b.toNat * 2 ^ 8 + c.toNat)
    (hput : Works input.length (do
      let out ← putChar outLen out j a
      let out ← putChar outLen out.1 out.2 b
      putChar outLen out.1 out.2 c) m out') :
    Works input.length (decodeTurn input outLen out i j) m out' := by
  obtain ⟨ha, hb, hc⟩ := triple_bytes h
  have hone : sizeT (i + 1) = i + 1 := sizeT_eq (by omega) (by omega)
  have htwo : sizeT (i + 2) = i + 2 := sizeT_eq (by omega) (by omega)
  have hthree : sizeT (i + 3) = i + 3 := sizeT_eq (by omega) (by omega)
  unfold decodeTurn
  rw [hone, htwo, hthree]
  refine h₁.read_bind (h₂.read_bind (h₃.read_bind (h₄.read_bind ?_)))
  simp only [ha, hb, hc]
  exact hput

theorem decodeLoop_ends {outLen fuel j : ℕ} {out : Bytes} (hi : input.drop i = []) :
    Works input.length (decodeLoop input input.length outLen (fuel + 1) out i j) 0 out := by
  rw [decodeLoop, if_neg (by simpa using hi)]
  exact works_pure

theorem decodeLoop_turn {outLen fuel j m k : ℕ} {out out'' : Bytes} {out' : Bytes × ℕ}
    (hi : i + 4 ≤ input.length) (hsize : input.length < 2 ^ 64)
    (hturn : Works input.length (decodeTurn input outLen out i j) m out')
    (hloop : Works input.length (decodeLoop input input.length outLen fuel out'.1 (i + 4) out'.2) k
      out'') :
    Works input.length (decodeLoop input input.length outLen (fuel + 1) out i j) (m + k) out'' := by
  have hnext : sizeT (i + 4) = i + 4 := sizeT_eq (by omega) (by omega)
  rw [decodeLoop, if_pos (by omega), hnext]
  exact hturn.bind hloop

/-- The loop gives back the bytes whose groups are left. -/
theorem decodeLoop_works {outLen fuel j : ℕ} {rest u : Bytes} (hsize : input.length < 2 ^ 64)
    (hi : input.drop i = encodeGroups rest) (hfuel : rest.length ≤ fuel) (hj : j = u.length)
    (hout : outLen = u.length + rest.length) (hbound : outLen < 2 ^ 64) :
    Works input.length (decodeLoop input input.length outLen (fuel + 1)
      (u ++ List.replicate rest.length 0) i j) rest.length (u ++ rest) := by
  have hlen := congrArg List.length hi
  rw [List.length_drop, length_encodeGroups] at hlen
  induction rest using encodeGroups.induct generalizing fuel i j u with
  | case1 =>
    rw [encodeGroups] at hi
    simpa using decodeLoop_ends hi
  | case2 a =>
    rw [encodeGroups] at hi
    simp only [List.length_cons, List.length_nil] at hlen hfuel hout
    obtain ⟨fuel, rfl⟩ := Nat.exists_eq_add_of_le' hfuel
    have ha := a.toNat_lt
    have hput : Works input.length (do
        let out ← putChar outLen (u ++ [0]) j a
        let out ← putChar outLen out.1 out.2 0
        putChar outLen out.1 out.2 0) 1 (u ++ [a], j + 1) :=
      (putChar_works (by omega) hbound hj (List.append_nil _).symm).write_bind
        ((putChar_end (by omega)).read_bind (putChar_end (by omega)))
    have hturn := decodeTurn_works (by omega) hsize (decodingValue_works (by omega) hi)
      (decodingValue_works (by omega) (drop_of_drop (u := [_]) hi rfl))
      (decodingValue_pad (drop_of_drop (u := [_, _]) hi rfl))
      (decodingValue_pad (drop_of_drop (u := [_, _, _]) hi rfl)) (by simp; omega) hput
    have hrest : input.drop (i + 4) = [] := drop_of_drop (u := [_, _, _, _]) hi rfl
    exact decodeLoop_turn (m := 1) (k := 0) (by omega) hsize hturn (decodeLoop_ends hrest)
  | case3 a b =>
    rw [encodeGroups] at hi
    simp only [List.length_cons, List.length_nil] at hlen hfuel hout
    obtain ⟨fuel, rfl⟩ := Nat.exists_eq_add_of_le' hfuel
    have ha := a.toNat_lt
    have hb := b.toNat_lt
    have hput : Works input.length (do
        let out ← putChar outLen (u ++ [0, 0]) j a
        let out ← putChar outLen out.1 out.2 b
        putChar outLen out.1 out.2 0) 2 (u ++ [a, b], j + 2) :=
      (putChar_works (by omega) hbound hj rfl).write_bind
        ((putChar_works (by omega) hbound (by simp [hj]) (by simp)).write_bind
          (putChar_end (by omega)))
    have hturn := decodeTurn_works (by omega) hsize (decodingValue_works (by omega) hi)
      (decodingValue_works (by omega) (drop_of_drop (u := [_]) hi rfl))
      (decodingValue_works (by omega) (drop_of_drop (u := [_, _]) hi rfl))
      (decodingValue_pad (drop_of_drop (u := [_, _, _]) hi rfl)) (by simp; omega) hput
    have hrest : input.drop (i + 4) = [] := drop_of_drop (u := [_, _, _, _]) hi rfl
    exact decodeLoop_turn (m := 2) (k := 0) (by omega) hsize hturn (decodeLoop_ends hrest)
  | case4 a b c s ih =>
    rw [encodeGroups] at hi
    simp only [List.length_cons] at hlen hfuel hout ⊢
    obtain ⟨fuel, rfl⟩ := Nat.exists_eq_add_of_le' (Nat.le_of_succ_le hfuel)
    have ha := a.toNat_lt
    have hb := b.toNat_lt
    have hc := c.toNat_lt
    have hput : Works input.length (do
        let out ← putChar outLen (u ++ 0 :: 0 :: 0 :: List.replicate s.length 0) j a
        let out ← putChar outLen out.1 out.2 b
        putChar outLen out.1 out.2 c) 3 (u ++ [a, b, c] ++ List.replicate s.length 0, j + 3) :=
      (putChar_works (by omega) hbound hj rfl).write_bind
        ((putChar_works (by omega) hbound (by simp [hj]) rfl).write_bind
          (putChar_works (by omega) hbound (by simp [hj]) (by simp)))
    have hturn := decodeTurn_works (by omega) hsize (decodingValue_works (by omega) hi)
      (decodingValue_works (by omega) (drop_of_drop (u := [_]) hi rfl))
      (decodingValue_works (by omega) (drop_of_drop (u := [_, _]) hi rfl))
      (decodingValue_works (by omega) (drop_of_drop (u := [_, _, _]) hi rfl)) (by omega) hput
    have hrest := @ih (i + 4) (fuel + (s.length + 1)) (j + 3) (u ++ [a, b, c])
      (drop_of_drop (u := [_, _, _, _]) hi rfl) (by omega) (by simp [hj]) (by simp; omega)
      (by omega)
    have hboth := decodeLoop_turn (by omega) hsize hturn hrest
    rw [List.append_assoc, Nat.add_comm 3] at hboth
    exact hboth

/-- The last two characters of an encoded text tell its length modulo three. -/
theorem encodeGroups_ends {s : Bytes} (hs : s ≠ []) :
    ∃ u x y, encodeGroups s = u ++ [x, y] ∧ (y = 61 ↔ s.length % 3 ≠ 0) ∧
      (x = 61 ↔ s.length % 3 = 1) := by
  induction s using encodeGroups.induct with
  | case1 => exact absurd rfl hs
  | case2 a => exact ⟨[_, _], 61, 61, by rw [encodeGroups]; rfl, by simp, by simp⟩
  | case3 a b =>
    have hb := b.toNat_lt
    have hpad := (decoding_sextetChar (b.toNat % 16 * 4) (by omega)).1
    exact ⟨[_, _], _, 61, by rw [encodeGroups]; rfl, by simp, by simp [hpad]⟩
  | case4 a b c s ih =>
    by_cases hrest : s = []
    · subst hrest
      have hc := c.toNat_lt
      have hthird := (decoding_sextetChar (b.toNat % 16 * 4 + c.toNat / 64) (by omega)).1
      have hfourth := (decoding_sextetChar (c.toNat % 64) (by omega)).1
      exact ⟨[_, _], _, _, by rw [encodeGroups, encodeGroups]; rfl, by simp [hfourth],
        by simp [hthird]⟩
    · obtain ⟨u, x, y, heq, hy, hx⟩ := ih hrest
      have hmod : (a :: b :: c :: s).length % 3 = s.length % 3 := Nat.add_mod_right s.length 3
      refine ⟨_ :: _ :: _ :: _ :: u, x, y, by rw [encodeGroups, heq]; rfl, ?_, ?_⟩
      · rw [hmod, hy]
      · rw [hmod, hx]

/-- The text that a nonempty one is encoded to is decoded to it. -/
theorem decode_works {s : Bytes} (hs : s ≠ []) (hsize : (encodeGroups s).length < 2 ^ 64) :
    Works (encodeGroups s).length (decode (encodeGroups s)) s.length s := by
  have hpos := List.length_pos_iff.mpr hs
  have hlen := length_encodeGroups s
  obtain ⟨u, x, y, heq, hy, hx⟩ := encodeGroups_ends hs
  have hu : (encodeGroups s).length = u.length + 2 := by rw [heq, List.length_append]; rfl
  have hlast : sizeT ((encodeGroups s).length - 1) = u.length + 1 := by
    rw [hu]
    unfold sizeT
    omega
  have hbefore : sizeT ((encodeGroups s).length - 2) = u.length := by
    rw [hu]
    unfold sizeT
    omega
  have hready : Works (encodeGroups s).length (readChar (encodeGroups s) (u.length + 1)) 0 y := by
    have hdrop : (encodeGroups s).drop (u.length + 1) = [y] := by
      rw [heq, ← List.drop_drop, List.drop_left]
      rfl
    exact works_readChar (by omega) hdrop
  have hreadx : Works (encodeGroups s).length (readChar (encodeGroups s) u.length) 0 x := by
    have hdrop : (encodeGroups s).drop u.length = [x, y] := by rw [heq, List.drop_left]
    exact works_readChar (by omega) hdrop
  have hout : (if x = 61 then sizeT (((if y = 61 then
        sizeT (((encodeGroups s).length / 4 * 3 : ℕ) - 1)
      else (encodeGroups s).length / 4 * 3 : ℕ) : ℤ) - 1)
      else if y = 61 then sizeT (((encodeGroups s).length / 4 * 3 : ℕ) - 1)
      else (encodeGroups s).length / 4 * 3) = s.length := by
    rw [sizeT_pred ((encodeGroups s).length / 4 * 3) (by omega) (by omega)]
    by_cases hone : s.length % 3 = 1
    · rw [if_pos (hx.mpr hone), if_pos (hy.mpr (by omega)), sizeT_pred _ (by omega) (by omega)]
      omega
    · rw [if_neg fun h => hone (hx.mp h)]
      by_cases hzero : s.length % 3 = 0
      · rw [if_neg fun h => hy.mp h hzero]
        omega
      · rw [if_pos (hy.mpr hzero)]
        omega
  have hloop := @decodeLoop_works (encodeGroups s) 0 s.length (encodeGroups s).length 0 s []
    hsize rfl (by omega) rfl (Nat.zero_add _).symm (by omega)
  unfold decode
  simp only [sizeT_natCast hsize]
  rw [if_neg (by omega), hlast]
  refine hready.read_bind ?_
  rw [hbefore]
  refine hreadx.read_bind ?_
  rw [hout]
  exact hloop

end

/-! ## The lengths of the texts -/

section

variable {len : ℕ} {s : Bytes} {i : ℕ} {c : UInt8}

theorem writeChar_ends : (writeChar s i c).Ends (·.length = s.length) := by
  refine Traced.ends_true.bind fun _ _ => ?_
  split
  · exact .pure (List.length_set ..)
  · exact Traced.ends_goWrong

theorem writeChar_keeps (h : s.length = len) : (writeChar s i c).Ends (·.length = len) :=
  h ▸ writeChar_ends

variable {data ret : Bytes} {p : ℕ}

theorem encodeTurn_keeps (h : ret.length = len) : (encodeTurn data ret i p).Ends (·.length = len) :=
  Traced.ends_true.bind fun _ _ => (writeChar_keeps h).bind fun _ h =>
    Traced.ends_true.bind fun _ _ => Traced.ends_true.bind fun _ _ =>
      (writeChar_keeps h).bind fun _ h => Traced.ends_true.bind fun _ _ =>
        Traced.ends_true.bind fun _ _ => (writeChar_keeps h).bind fun _ h =>
          Traced.ends_true.bind fun _ _ => writeChar_keeps h

theorem encodeRest_keeps {inLen : ℕ} (h : ret.length = len) :
    (encodeRest data inLen ret i p).Ends (·.length = len) := by
  unfold encodeRest
  split
  · refine Traced.ends_true.bind fun _ _ => (writeChar_keeps h).bind fun _ h => ?_
    split
    · exact Traced.ends_true.bind fun _ _ => (writeChar_keeps h).bind fun _ h =>
        (writeChar_keeps h).bind fun _ h => writeChar_keeps h
    · exact Traced.ends_true.bind fun _ _ => Traced.ends_true.bind fun _ _ =>
        (writeChar_keeps h).bind fun _ h => Traced.ends_true.bind fun _ _ =>
          (writeChar_keeps h).bind fun _ h => writeChar_keeps h
  · exact .pure h

theorem encodeLoop_keeps {inLen fuel : ℕ} (h : ret.length = len) :
    (encodeLoop data inLen fuel ret i p).Ends (·.length = len) := by
  induction fuel generalizing ret i p with
  | zero => exact Traced.ends_goWrong
  | succ fuel ih =>
    unfold encodeLoop
    split
    · exact (encodeTurn_keeps h).bind fun _ h => ih h
    · exact encodeRest_keeps h

variable {input out : Bytes} {outLen j : ℕ}

theorem putChar_keeps (h : out.length = len) :
    (putChar outLen out j c).Ends (·.1.length = len) := by
  unfold putChar
  split
  · exact (writeChar_keeps h).bind fun _ h => .pure h
  · exact .pure h

theorem decodeTurn_keeps (h : out.length = len) :
    (decodeTurn input outLen out i j).Ends (·.1.length = len) :=
  Traced.ends_true.bind fun _ _ => Traced.ends_true.bind fun _ _ => Traced.ends_true.bind fun _ _ =>
    Traced.ends_true.bind fun _ _ => (putChar_keeps h).bind fun _ h =>
      (putChar_keeps h).bind fun _ h => putChar_keeps h

theorem decodeLoop_keeps {inLen fuel : ℕ} (h : out.length = len) :
    (decodeLoop input inLen outLen fuel out i j).Ends (·.length = len) := by
  induction fuel generalizing out i j with
  | zero => exact Traced.ends_goWrong
  | succ fuel ih =>
    unfold decodeLoop
    split
    · exact (decodeTurn_keeps h).bind fun _ h => ih h
    · exact .pure h

theorem encode_keeps (data : Bytes) :
    (encode data).Ends (·.length = sizeT (4 * ((sizeT (sizeT data.length + 2) / 3 : ℕ) : ℤ))) :=
  encodeLoop_keeps (List.length_replicate ..)

/-- A decoded text has at most three bytes for four characters. -/
theorem decode_keeps (hsize : input.length < 2 ^ 64) (hfour : input.length % 4 = 0) :
    (decode input).Ends (·.length ≤ input.length / 4 * 3) := by
  by_cases hempty : input = []
  · subst hempty
    have hnone : (decode []).result = none := by decide +kernel
    intro out hout
    rw [hnone] at hout
    cases hout
  have hpos := List.length_pos_iff.mpr hempty
  unfold decode
  simp only [sizeT_natCast hsize]
  rw [if_neg (by omega)]
  refine Traced.ends_true.bind fun y _ => Traced.ends_true.bind fun x _ => ?_
  intro out hout
  rw [decodeLoop_keeps (List.length_replicate ..) out hout]
  split_ifs
  · rw [sizeT_pred (input.length / 4 * 3) (by omega) (by omega), sizeT_pred _ (by omega) (by omega)]
    omega
  · rw [sizeT_pred _ (by omega) (by omega)]
    omega
  · rw [sizeT_pred _ (by omega) (by omega)]
    omega
  · exact le_rfl

end

/-! ## The round trip -/

/-- Encoding reads within the text only, writes four characters for three bytes, and is undone by
decoding. -/
structure Base64RoundTrips (d : Bytes) : Prop where
  reads : ∀ i, BufferEvent.read i ∈ (encode d).events → i < d.length
  writes : (encode d).events.countP BufferEvent.isWrite = 4 * ((d.length + 2) / 3)
  decodes : ∃ e, (encode d).result = some e ∧ (decode e).result = some d

private theorem reads_behind (a : UInt8) : BufferEvent.read 1 ∈ (encode [a]).events := by
  revert a
  exact forall_byte (by decide +kernel)

/-- Encoding is undone exactly from two bytes on, as long as the characters can be counted. -/
theorem base64_roundTrips_iff (d : Bytes) :
    Base64RoundTrips d ↔ 2 ≤ d.length ∧ 4 * ((d.length + 2) / 3) < 2 ^ 64 := by
  constructor
  · rintro ⟨hreads, -, e, he, hd⟩
    refine ⟨?_, ?_⟩
    · match d with
      | [] => exact absurd (hreads 0 (by decide)) (by decide)
      | [a] => exact absurd (hreads 1 (reads_behind a)) (by simp)
      | a :: b :: s => simp
    · have hlen := encode_keeps d e he
      have hsize : e.length < 2 ^ 64 := by
        unfold sizeT at hlen
        omega
      have hfour : e.length % 4 = 0 := by
        rw [hlen]
        unfold sizeT
        omega
      have hle := decode_keeps hsize hfour d hd
      omega
  · rintro ⟨htwo, hsize⟩
    have hencode := encode_works htwo hsize
    have hne : d ≠ [] := by
      rintro rfl
      exact absurd htwo (by decide)
    exact ⟨hencode.reads, hencode.writes, encodeGroups d, hencode.result,
      (decode_works hne (by rw [length_encodeGroups]; exact hsize)).result⟩

/-- One byte is not encoded within its bounds: the loop reads the two characters behind it. -/
theorem not_base64_roundTrips_one : ¬Base64RoundTrips [65] := by
  intro h
  exact absurd (h.reads 1 (by decide +kernel)) (by decide)

end Quarks
