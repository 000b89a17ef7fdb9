import PeerChat.Python.Text

/-! UTF-8 as Python's codecs read and write it: `str.encode()` refuses lone surrogates,
while `bytes.decode("utf-8", "surrogatepass")` lets them through. -/
namespace Python.Utf8

def byte (n : ℕ) : UInt8 := UInt8.ofNat n

@[simp] theorem byte_toNat {n : ℕ} (h : n < 256) : (byte n).toNat = n := by
  simp [byte,Nat.mod_eq_of_lt h]

/-- The one to four bytes of a code point. -/
def encodeChar (c : CodePoint) : Bytes :=
  let n := c.val
  if n < 0x80 then [byte n]
  else if n < 0x800 then [byte (0xC0+n/64),byte (0x80+n%64)]
  else if n < 0x10000 then [byte (0xE0+n/4096),byte (0x80+n/64%64),byte (0x80+n%64)]
  else [byte (0xF0+n/262144),byte (0x80+n/4096%64),byte (0x80+n/64%64),byte (0x80+n%64)]

/-- `s.encode()`, none for the UnicodeEncodeError of a surrogate. -/
def encode (s : Str) : Option Bytes :=
  if s.any isSurrogate then none else some (s.flatMap encodeChar)

/-- The six low bits of a continuation byte. -/
def tail (b : UInt8) : Option ℕ :=
  if 0x80 ≤ b.toNat ∧ b.toNat ≤ 0xBF then some (b.toNat-0x80) else none

/-- A decoded number, refused below the shortest-form bound `least` of its length. -/
def codePoint (least n : ℕ) : Option CodePoint :=
  if h : least ≤ n ∧ n < 0x110000 then some ⟨n,h.2⟩ else none

/-- One code point off the front. -/
def decodeChar : Bytes → Option (CodePoint × Bytes)
  | [] => none
  | b::rest =>
    let n := b.toNat
    if n < 0x80 then (codePoint 0 n).map (·,rest)
    else if n < 0xC0 then none
    else if n < 0xE0 then
      match rest with
      | b₁::rest => do
        let x₁ ← tail b₁
        let c ← codePoint 0x80 (64*(n-0xC0)+x₁)
        some (c,rest)
      | _ => none
    else if n < 0xF0 then
      match rest with
      | b₁::b₂::rest => do
        let x₁ ← tail b₁
        let x₂ ← tail b₂
        let c ← codePoint 0x800 (4096*(n-0xE0)+64*x₁+x₂)
        some (c,rest)
      | _ => none
    else if n < 0xF8 then
      match rest with
      | b₁::b₂::b₃::rest => do
        let x₁ ← tail b₁
        let x₂ ← tail b₂
        let x₃ ← tail b₃
        let c ← codePoint 0x10000 (262144*(n-0xF0)+4096*x₁+64*x₂+x₃)
        some (c,rest)
      | _ => none
    else none

/-- The number bounds the characters still to be read; a code point takes at least one byte. -/
def decodeFrom : ℕ → Bytes → Option Str
  | _, [] => some []
  | 0, _::_ => none
  | k+1, bs => do
    let (c,rest) ← decodeChar bs
    let s ← decodeFrom k rest
    some (c::s)

/-- `bs.decode("utf-8", "surrogatepass")`, none for a UnicodeDecodeError. -/
def decode (bs : Bytes) : Option Str := decodeFrom bs.length bs

lemma tail_byte {x : ℕ} (h : x < 64) : tail (byte (0x80+x)) = some x := by
  have hb : (byte (0x80+x)).toNat = 0x80+x := byte_toNat (by omega)
  simp only [tail,hb]
  rw [if_pos (by omega),Nat.add_sub_cancel_left]

lemma codePoint_val (least : ℕ) (c : CodePoint) {n : ℕ} (hn : n = c.val) (h : least ≤ c.val) :
    codePoint least n = some c := by
  have hc : least ≤ c.val ∧ c.val < 0x110000 := ⟨h,c.isLt⟩
  rw [hn,codePoint,dif_pos hc]

lemma three_bytes (n : ℕ) : 4096*(0xE0+n/4096-0xE0)+64*(n/64%64)+n%64 = n := by omega

lemma four_bytes (n : ℕ) :
    262144*(0xF0+n/262144-0xF0)+4096*(n/4096%64)+64*(n/64%64)+n%64 = n := by omega

lemma decodeChar_one (c : CodePoint) (rest : Bytes) (h : c.val < 0x80) :
    decodeChar (byte c.val :: rest) = some (c,rest) := by
  have hb : (byte c.val).toNat = c.val := byte_toNat (by omega)
  simp only [decodeChar,hb,if_pos h]
  rw [codePoint_val 0 c rfl (Nat.zero_le _)]
  rfl

lemma decodeChar_two (c : CodePoint) (rest : Bytes) (h : 0x80 ≤ c.val) (h' : c.val < 0x800) :
    decodeChar (byte (0xC0+c.val/64) :: byte (0x80+c.val%64) :: rest) = some (c,rest) := by
  have hb : (byte (0xC0+c.val/64)).toNat = 0xC0+c.val/64 := byte_toNat (by omega)
  simp only [decodeChar,hb]
  rw [if_neg (by omega),if_neg (by omega),if_pos (by omega),tail_byte (by omega)]
  simp only [Option.bind_eq_bind,Option.bind_some]
  rw [codePoint_val 0x80 c (by omega) h]
  rfl

lemma decodeChar_three (c : CodePoint) (rest : Bytes) (h : 0x800 ≤ c.val) (h' : c.val < 0x10000) :
    decodeChar (byte (0xE0+c.val/4096) :: byte (0x80+c.val/64%64) :: byte (0x80+c.val%64) :: rest)
      = some (c,rest) := by
  have hb : (byte (0xE0+c.val/4096)).toNat = 0xE0+c.val/4096 := byte_toNat (by omega)
  simp only [decodeChar,hb]
  rw [if_neg (by omega),if_neg (by omega),if_neg (by omega),if_pos (by omega),
    tail_byte (by omega),tail_byte (by omega)]
  simp only [Option.bind_eq_bind,Option.bind_some]
  rw [codePoint_val 0x800 c (three_bytes c.val) h]
  rfl

lemma decodeChar_four (c : CodePoint) (rest : Bytes) (h : 0x10000 ≤ c.val) :
    decodeChar (byte (0xF0+c.val/262144) :: byte (0x80+c.val/4096%64) :: byte (0x80+c.val/64%64) ::
      byte (0x80+c.val%64) :: rest) = some (c,rest) := by
  have hlt : c.val/262144 < 8 := Nat.div_lt_of_lt_mul (c.isLt.trans (by decide))
  have hb : (byte (0xF0+c.val/262144)).toNat = 0xF0+c.val/262144 := byte_toNat (by omega)
  simp only [decodeChar,hb]
  rw [if_neg (by omega),if_neg (by omega),if_neg (by omega),if_neg (by omega),
    if_pos (by omega),tail_byte (by omega),tail_byte (by omega),tail_byte (by omega)]
  simp only [Option.bind_eq_bind,Option.bind_some]
  rw [codePoint_val 0x10000 c (four_bytes c.val) h]
  rfl

/-- Decoding reads back what encoding wrote, whatever follows. -/
theorem decodeChar_encodeChar (c : CodePoint) (rest : Bytes) :
    decodeChar (encodeChar c ++ rest) = some (c,rest) := by
  simp only [encodeChar]
  split_ifs with h1 h2 h3
  · exact decodeChar_one c rest h1
  · exact decodeChar_two c rest (not_lt.mp h1) h2
  · exact decodeChar_three c rest (not_lt.mp h2) h3
  · exact decodeChar_four c rest (not_lt.mp h3)

lemma encodeChar_ne_nil (c : CodePoint) : encodeChar c ≠ [] := by
  simp only [encodeChar]
  split_ifs <;> simp

lemma decodeFrom_flatMap (s : Str) (k : ℕ) (hk : (s.flatMap encodeChar).length ≤ k) :
    decodeFrom k (s.flatMap encodeChar) = some s := by
  induction s generalizing k with
  | nil => cases k <;> rfl
  | cons c s ih =>
    rw [List.flatMap_cons,List.length_append] at hk
    have hpos : 0 < (encodeChar c).length := List.length_pos_iff.mpr (encodeChar_ne_nil c)
    obtain ⟨k,rfl⟩ : ∃ j, k = j+1 := ⟨k-1,by omega⟩
    have hd := decodeChar_encodeChar c (s.flatMap encodeChar)
    rw [List.flatMap_cons]
    cases hb : encodeChar c ++ s.flatMap encodeChar with
    | nil => simp [encodeChar_ne_nil] at hb
    | cons b bs =>
      rw [hb] at hd
      simp [decodeFrom,hd,ih k (by omega)]

/-- The round trip of an encodable text. -/
theorem decode_encode {s : Str} {bs : Bytes} (h : encode s = some bs) : decode bs = some s := by
  simp only [encode] at h
  split_ifs at h
  cases h
  exact decodeFrom_flatMap s _ le_rfl

/-- Encoding keeps the ASCII byte `n` exactly where the text has that character. -/
theorem mem_encodeChar_iff {n : ℕ} (hn : n < 0x80) (c : CodePoint) :
    byte n ∈ encodeChar c ↔ c.val = n := by
  have hc := c.isLt
  have hne : ∀ m, 0x80 ≤ m → m < 256 → byte n ≠ byte m := by
    intro m hm hm' he
    have := congrArg UInt8.toNat he
    rw [byte_toNat (by omega),byte_toNat hm'] at this
    omega
  simp only [encodeChar]
  split_ifs with h1 h2 h3
  · rw [List.mem_singleton]
    constructor
    · intro he
      have := congrArg UInt8.toNat he
      rw [byte_toNat (by omega),byte_toNat (by omega)] at this
      exact this.symm
    · rintro rfl; rfl
  all_goals
    simp only [List.mem_cons,List.not_mem_nil,or_false]
    refine iff_of_false ?_ (by omega)
    simp only [not_or]
  · exact ⟨hne _ (by omega) (by omega),hne _ (by omega) (by omega)⟩
  · exact ⟨hne _ (by omega) (by omega),hne _ (by omega) (by omega),hne _ (by omega) (by omega)⟩
  · exact ⟨hne _ (by omega) (by omega),hne _ (by omega) (by omega),hne _ (by omega) (by omega),
      hne _ (by omega) (by omega)⟩

theorem encode_append {s t : Str} {bs : Bytes} (h : encode (s ++ t) = some bs) :
    ∃ xs ys, encode s = some xs ∧ encode t = some ys ∧ bs = xs ++ ys := by
  simp only [encode,List.any_append] at h
  split_ifs at h with hs
  rw [Bool.or_eq_true,not_or] at hs
  refine ⟨s.flatMap encodeChar,t.flatMap encodeChar,?_,?_,?_⟩
  · simp [encode,hs.1]
  · simp [encode,hs.2]
  · simpa using h.symm

end Python.Utf8
