import PeerChat.Python.Utf8

/-! The other encodings that `json.loads` detects from the first bytes of its input. They
matter because a hostile line may be written in them; the lines of honest peers are UTF-8. -/
namespace Python

/-- Byte order of a multi-byte unit. -/
inductive Order
  | big
  | little
  deriving DecidableEq, Repr

namespace Utf16

def unit (o : Order) (a b : UInt8) : ℕ :=
  match o with
  | .big => 256*a.toNat+b.toNat
  | .little => 256*b.toNat+a.toNat

lemma unit_lt (o : Order) (a b : UInt8) : unit o a b < 0x10000 := by
  have ha : a.toNat < 256 := a.toNat_lt
  have hb : b.toNat < 256 := b.toNat_lt
  cases o <;> simp only [unit] <;> omega

/-- A high and a low surrogate unit as one code point. -/
def pair (hi lo : ℕ) (h : hi < 0xDC00) (h' : lo < 0xE000) : CodePoint :=
  ⟨0x10000+1024*(hi-0xD800)+(lo-0xDC00),by omega⟩

/-- `bs.decode("utf-16-..", "surrogatepass")`: proper pairs join, lone surrogates pass. -/
def decode (o : Order) : Bytes → Option Str
  | [] => some []
  | [_] => none
  | a::b::[] => some [⟨unit o a b,(unit_lt o a b).trans (by decide)⟩]
  | _::_::[_] => none
  | a::b::c::d::rest =>
    let hi := unit o a b
    let lo := unit o c d
    if h : (0xD800 ≤ hi ∧ hi < 0xDC00) ∧ 0xDC00 ≤ lo ∧ lo < 0xE000 then
      (decode o rest).map (pair hi lo h.1.2 h.2.2 :: ·)
    else
      (decode o (c::d::rest)).map (⟨hi,(unit_lt o a b).trans (by decide)⟩ :: ·)

end Utf16

namespace Utf32

/-- `bs.decode("utf-32-..", "surrogatepass")`. -/
def decode (o : Order) : Bytes → Option Str
  | [] => some []
  | a::b::c::d::rest =>
    let n := match o with
      | .big => 65536*Utf16.unit o a b+Utf16.unit o c d
      | .little => 65536*Utf16.unit o c d+Utf16.unit o a b
    if h : n < 0x110000 then (decode o rest).map (⟨n,h⟩ :: ·) else none
  | _ => none

end Utf32

/-- `json.detect_encoding` followed by the decoding. Byte order marks are looked at first, the
32-bit ones before the 16-bit one that starts like them, then the zero bytes. -/
def decodeDetected (bs : Bytes) : Option Str :=
  if [0,0,0xFE,0xFF].isPrefixOf bs then Utf32.decode .big (bs.drop 4)
  else if [0xFF,0xFE,0,0].isPrefixOf bs then Utf32.decode .little (bs.drop 4)
  else if [0xFE,0xFF].isPrefixOf bs then Utf16.decode .big (bs.drop 2)
  else if [0xFF,0xFE].isPrefixOf bs then Utf16.decode .little (bs.drop 2)
  else if [0xEF,0xBB,0xBF].isPrefixOf bs then Utf8.decode (bs.drop 3)
  else match bs with
    | a::b::c::d::_ =>
      if a = 0 then if b = 0 then Utf32.decode .big bs else Utf16.decode .big bs
      else if b = 0 then
        if c = 0 ∧ d = 0 then Utf32.decode .little bs else Utf16.decode .little bs
      else Utf8.decode bs
    | [a,b] =>
      if a = 0 then Utf16.decode .big bs
      else if b = 0 then Utf16.decode .little bs
      else Utf8.decode bs
    | _ => Utf8.decode bs

/-- Two leading ASCII bytes, none of them zero, select UTF-8. -/
theorem decodeDetected_of_ascii {a b : UInt8} (ha : a ≠ 0) (hb : b ≠ 0)
    (ha' : a.toNat < 0x80) (rest : Bytes) :
    decodeDetected (a::b::rest) = Utf8.decode (a::b::rest) := by
  have hne : ∀ m : UInt8, 0x80 ≤ m.toNat → (m == a) = false := by
    intro m hm
    refine beq_false_of_ne ?_
    rintro rfl
    omega
  have hz : ((0 : UInt8) == a) = false := beq_false_of_ne (fun h => ha h.symm)
  have h1 := hne 0xFF (by decide)
  have h2 := hne 0xFE (by decide)
  have h3 := hne 0xEF (by decide)
  simp only [decodeDetected,List.isPrefixOf,hz,h1,h2,h3,Bool.false_and,Bool.false_eq_true,
    if_false]
  match rest with
  | [] => simp only [if_neg ha,if_neg hb]
  | [_] => rfl
  | _::_::_ => simp only [if_neg ha,if_neg hb]

end Python
