import Quarks.Json.Value

/-!
# Frames

A node sends a text in a frame: its size as the eight bytes of a `size_t`, the lowest one
first, and the text.
-/

namespace Quarks

/-- The lowest bytes of a number, the lowest one first. -/
def littleEndian : ℕ → ℕ → Bytes
  | 0, _ => []
  | places + 1, n => UInt8.ofNat n :: littleEndian places (n / 256)

/-- The number with these bytes. -/
def ofLittleEndian (s : Bytes) : ℕ := s.foldr (fun c n => c.toNat + 256 * n) 0

@[simp] theorem length_littleEndian (places n : ℕ) : (littleEndian places n).length = places := by
  induction places generalizing n with
  | zero => rfl
  | succ places ih => simp [littleEndian, ih]

theorem ofLittleEndian_littleEndian {places n : ℕ} (h : n < 256 ^ places) :
    ofLittleEndian (littleEndian places n) = n := by
  induction places generalizing n with
  | zero =>
    have hzero : n = 0 := by simpa using h
    rw [hzero]
    rfl
  | succ places ih =>
    have hdiv : n / 256 < 256 ^ places := by
      rw [pow_succ] at h
      exact Nat.div_lt_of_lt_mul (by omega)
    have hrest := ih hdiv
    unfold ofLittleEndian at hrest
    rw [littleEndian, ofLittleEndian, List.foldr_cons, hrest, UInt8.toNat_ofNat']
    omega

/-- `EncodedMsg`. -/
def encodedMsg (msg : Bytes) : Bytes := littleEndian 8 msg.length ++ msg

/-- `DecodedMsg`. A size that reaches behind the frame makes it read there. -/
def decodedMsg (frame : Bytes) : Except Failure Bytes :=
  if 8 ≤ frame.length ∧ ofLittleEndian (frame.take 8) ≤ frame.length - 8 then
    .ok ((frame.drop 8).take (ofLittleEndian (frame.take 8)))
  else .error .undefined

/-- A text whose size is a `size_t` is read back from its frame. -/
theorem decodedMsg_encodedMsg {msg : Bytes} (h : msg.length < 2 ^ 64) :
    decodedMsg (encodedMsg msg) = .ok msg := by
  have hlength : (littleEndian 8 msg.length).length = 8 := length_littleEndian 8 _
  have htake : (encodedMsg msg).take 8 = littleEndian 8 msg.length := List.take_left' hlength
  have hdrop : (encodedMsg msg).drop 8 = msg := List.drop_left' hlength
  have hsize : ofLittleEndian (littleEndian 8 msg.length) = msg.length :=
    ofLittleEndian_littleEndian (by simpa using h)
  have htotal : (encodedMsg msg).length = 8 + msg.length := by
    rw [encodedMsg, List.length_append, hlength]
  rw [decodedMsg, htake, hdrop, hsize, htotal, if_pos (by omega), List.take_length]

end Quarks
