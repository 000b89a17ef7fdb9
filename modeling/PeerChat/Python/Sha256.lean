import PeerChat.Python.Json

/-! SHA-256, as `hashlib` computes it. Only the shape of the digest is used by proofs; the
compression function is here so that concrete identifiers can be computed. -/
namespace Python.Sha256

abbrev Word := BitVec 32

def roundConstants : List Word :=
  [0x428a2f98,0x71374491,0xb5c0fbcf,0xe9b5dba5,0x3956c25b,0x59f111f1,0x923f82a4,0xab1c5ed5,
    0xd807aa98,0x12835b01,0x243185be,0x550c7dc3,0x72be5d74,0x80deb1fe,0x9bdc06a7,0xc19bf174,
    0xe49b69c1,0xefbe4786,0x0fc19dc6,0x240ca1cc,0x2de92c6f,0x4a7484aa,0x5cb0a9dc,0x76f988da,
    0x983e5152,0xa831c66d,0xb00327c8,0xbf597fc7,0xc6e00bf3,0xd5a79147,0x06ca6351,0x14292967,
    0x27b70a85,0x2e1b2138,0x4d2c6dfc,0x53380d13,0x650a7354,0x766a0abb,0x81c2c92e,0x92722c85,
    0xa2bfe8a1,0xa81a664b,0xc24b8b70,0xc76c51a3,0xd192e819,0xd6990624,0xf40e3585,0x106aa070,
    0x19a4c116,0x1e376c08,0x2748774c,0x34b0bcb5,0x391c0cb3,0x4ed8aa4a,0x5b9cca4f,0x682e6ff3,
    0x748f82ee,0x78a5636f,0x84c87814,0x8cc70208,0x90befffa,0xa4506ceb,0xbef9a3f7,0xc67178f2]

/-- The eight chaining words. -/
structure Chain where
  a : Word
  b : Word
  c : Word
  d : Word
  e : Word
  f : Word
  g : Word
  h : Word

def initial : Chain :=
  ⟨0x6a09e667,0xbb67ae85,0x3c6ef372,0xa54ff53a,0x510e527f,0x9b05688c,0x1f83d9ab,0x5be0cd19⟩

def round (s : Chain) (kw : Word × Word) : Chain :=
  let s1 := s.e.rotateRight 6 ^^^ s.e.rotateRight 11 ^^^ s.e.rotateRight 25
  let ch := (s.e &&& s.f) ^^^ (~~~s.e &&& s.g)
  let t1 := s.h+s1+ch+kw.1+kw.2
  let s0 := s.a.rotateRight 2 ^^^ s.a.rotateRight 13 ^^^ s.a.rotateRight 22
  let maj := (s.a &&& s.b) ^^^ (s.a &&& s.c) ^^^ (s.b &&& s.c)
  ⟨t1+(s0+maj),s.a,s.b,s.c,s.d+t1,s.e,s.f,s.g⟩

/-- The message schedule, newest word first. -/
def schedule : ℕ → List Word → List Word
  | 0, ws => ws
  | n+1, ws =>
    let x := ws.getD 14 0
    let y := ws.getD 1 0
    let s0 := x.rotateRight 7 ^^^ x.rotateRight 18 ^^^ x >>> 3
    let s1 := y.rotateRight 17 ^^^ y.rotateRight 19 ^^^ y >>> 10
    schedule n ((ws.getD 15 0+s0+ws.getD 6 0+s1)::ws)

def compress (s : Chain) (block : List Word) : Chain :=
  let t := (roundConstants.zip (schedule 48 block.reverse).reverse).foldl round s
  ⟨s.a+t.a,s.b+t.b,s.c+t.c,s.d+t.d,s.e+t.e,s.f+t.f,s.g+t.g,s.h+t.h⟩

def wordBytes (n : ℕ) : Bytes :=
  [Utf8.byte (n/16777216%256),Utf8.byte (n/65536%256),Utf8.byte (n/256%256),Utf8.byte (n%256)]

/-- One bit, zeros up to eight bytes before a block boundary, and the length in bits. -/
def pad (m : Bytes) : Bytes :=
  m ++ 0x80 :: List.replicate ((119-m.length%64)%64) 0 ++
    wordBytes (8*m.length/4294967296) ++ wordBytes (8*m.length)

def words : Bytes → List Word
  | a::b::c::d::rest =>
    BitVec.ofNat 32 (16777216*a.toNat+65536*b.toNat+256*c.toNat+d.toNat) :: words rest
  | _ => []

def absorb : ℕ → Chain → List Word → Chain
  | 0, s, _ => s
  | n+1, s, ws => absorb n (compress s (ws.take 16)) (ws.drop 16)

def digest (m : Bytes) : Chain :=
  absorb ((pad m).length/64) initial (words (pad m))

def wordHex (w : Word) : Str :=
  let n := w.toNat
  [n/268435456%16,n/16777216%16,n/1048576%16,n/65536%16,n/4096%16,n/256%16,n/16%16,n%16].map
    Json.hexDigit

def Chain.words (s : Chain) : List Word := [s.a,s.b,s.c,s.d,s.e,s.f,s.g,s.h]

/-- `hashlib.sha256(m).hexdigest()`. -/
def hexdigest (m : Bytes) : Str := (digest m).words.flatMap wordHex

/-- A lower-case hexadecimal digit. -/
def isHex (c : CodePoint) : Bool := (48 ≤ c.val && c.val ≤ 57) || (97 ≤ c.val && c.val ≤ 102)

lemma isHex_hexDigit {n : ℕ} (h : n < 16) : isHex (Json.hexDigit n) = true := by
  have hall : ∀ n : Fin 16, isHex (Json.hexDigit n.val) = true := by decide
  exact hall ⟨n,h⟩

lemma wordHex_isHex (w : Word) : ∀ c ∈ wordHex w, isHex c = true := by
  intro c hc
  simp only [wordHex,List.mem_map] at hc
  obtain ⟨n,hn,rfl⟩ := hc
  refine isHex_hexDigit ?_
  simp only [List.mem_cons,List.not_mem_nil,or_false] at hn
  omega

@[simp] theorem hexdigest_length (m : Bytes) : (hexdigest m).length = 64 := rfl

theorem hexdigest_isHex (m : Bytes) : ∀ c ∈ hexdigest m, isHex c = true := by
  intro c hc
  obtain ⟨w,-,hw⟩ := List.mem_flatMap.mp hc
  exact wordHex_isHex w c hw

example : hexdigest [0x61,0x62,0x63] =
    str "ba7816bf8f01cfea414140de5dae2223b00361a396177a9cb410ff61f20015ad" := by decide +kernel

end Python.Sha256
