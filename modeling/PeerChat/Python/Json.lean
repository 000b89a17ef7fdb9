import PeerChat.Python.Utf16

/-! Python's `json` module: `dumps(value, ensure_ascii=False)` with the default separators, and
`loads`. A parsed object keeps its pairs in reading order; looking a key up takes the last
one, which is the value the resulting `dict` holds. A float keeps the text it was read from.
`loads` here is without the limits of an interpreter, which `Interp.loads` adds. -/
namespace Python

inductive Json
  | null
  | bool (b : Bool)
  | int (n : ℤ)
  | float (lexeme : Str)
  | str (s : Str)
  | arr (items : List Json)
  | obj (pairs : List (Str × Json))

namespace Json

/-- `value.get(key)` on a dict; none on a missing key. -/
def get (key : Str) : Json → Option Json
  | .obj pairs => pairs.reverse.lookup key
  | _ => none

/-- `isinstance(value, str)` with the string. -/
def str? : Json → Option Str
  | .str s => some s
  | _ => none

/-- A character by its ASCII code, for the fixed characters of the syntax. -/
abbrev chr (n : ℕ) (h : n < 0x110000 := by decide) : CodePoint := ⟨n,h⟩

abbrev quote : CodePoint := chr 34
abbrev backslash : CodePoint := chr 92

/-- Lower-case hexadecimal digit. -/
def hexDigit (n : ℕ) : CodePoint :=
  if h : n < 10 then chr (48+n) (by omega) else chr (87+n%16) (by omega)

/-- One character of a string literal as `dumps` writes it. -/
def escapeChar (c : CodePoint) : Str :=
  if c = quote then [backslash,quote]
  else if c = backslash then [backslash,backslash]
  else if c = chr 10 then [backslash,chr 110]
  else if c = chr 13 then [backslash,chr 114]
  else if c = chr 9 then [backslash,chr 116]
  else if c = chr 12 then [backslash,chr 102]
  else if c = chr 8 then [backslash,chr 98]
  else if c.val < 32 then
    [backslash,chr 117,chr 48,chr 48,hexDigit (c.val/16),hexDigit (c.val%16)]
  else [c]

def dumpsStr (s : Str) : Str := quote :: (s.flatMap escapeChar ++ [quote])

/-- Decimal digits, most significant first; the number bounds how many are left to write. -/
def digitsFrom : ℕ → ℕ → Str → Str
  | 0, _, acc => acc
  | k+1, n, acc =>
    let acc := hexDigit (n%10) :: acc
    if n < 10 then acc else digitsFrom k (n/10) acc

def dumpsNat (n : ℕ) : Str := digitsFrom (n+1) n []

def dumpsInt : ℤ → Str
  | .ofNat n => dumpsNat n
  | .negSucc n => chr 45 :: dumpsNat (n+1)

mutual
/-- `json.dumps(value, ensure_ascii=False)`. -/
def dumps : Json → Str
  | .null => Python.str "null"
  | .bool true => Python.str "true"
  | .bool false => Python.str "false"
  | .int n => dumpsInt n
  | .float lexeme => lexeme
  | .str s => dumpsStr s
  | .arr [] => Python.str "[]"
  | .arr (x::xs) => chr 91 :: (dumps x ++ dumpsItems xs)
  | .obj [] => chr 123 :: [chr 125]
  | .obj ((k,v)::ps) => chr 123 :: (dumpsStr k ++ chr 58 :: chr 32 :: (dumps v ++ dumpsPairs ps))
/-- The items after the first, and the closing bracket. -/
def dumpsItems : List Json → Str
  | [] => [chr 93]
  | x::xs => chr 44 :: chr 32 :: (dumps x ++ dumpsItems xs)
/-- The pairs after the first, and the closing brace. -/
def dumpsPairs : List (Str × Json) → Str
  | [] => [chr 125]
  | (k,v)::ps =>
    chr 44 :: chr 32 :: (dumpsStr k ++ chr 58 :: chr 32 :: (dumps v ++ dumpsPairs ps))
end

/-! Reading. -/

def isJsonSpace (c : CodePoint) : Bool := c == chr 32 || c == chr 9 || c == chr 10 || c == chr 13

def skipSpace (s : Str) : Str := s.dropWhile isJsonSpace

def hexValue (c : CodePoint) : Option ℕ :=
  if 48 ≤ c.val ∧ c.val ≤ 57 then some (c.val-48)
  else if 97 ≤ c.val ∧ c.val ≤ 102 then some (c.val-87)
  else if 65 ≤ c.val ∧ c.val ≤ 70 then some (c.val-55)
  else none

/-- The four digits of a `\u` escape. -/
def hex4 : Str → Option (Fin 0x10000 × Str)
  | a::b::c::d::rest => do
    let a ← hexValue a
    let b ← hexValue b
    let c ← hexValue c
    let d ← hexValue d
    some (⟨(4096*a+256*b+16*c+d)%0x10000,Nat.mod_lt _ (by decide)⟩,rest)
  | _ => none

def ofUnit (u : Fin 0x10000) : CodePoint := ⟨u.val,u.isLt.trans (by decide)⟩

/-- What follows a backslash. A high surrogate joins a low one escaped right after it; any
other surrogate stands for itself. -/
def scanEscape : Str → Option (CodePoint × Str)
  | [] => none
  | e::rest =>
    if e = chr 117 then do
      let (u,rest) ← hex4 rest
      if 0xD800 ≤ u.val ∧ u.val < 0xDC00 then
        match rest with
        | b::v::tail =>
          if b = backslash ∧ v = chr 117 then do
            let (w,rest') ← hex4 tail
            if 0xDC00 ≤ w.val ∧ w.val < 0xE000 then
              some (⟨(0x10000+1024*(u.val-0xD800)+(w.val-0xDC00))%0x110000,
                Nat.mod_lt _ (by decide)⟩,rest')
            else some (ofUnit u,rest)
          else some (ofUnit u,rest)
        | _ => some (ofUnit u,rest)
      else some (ofUnit u,rest)
    else if e = quote ∨ e = backslash ∨ e = chr 47 then some (e,rest)
    else if e = chr 98 then some (chr 8,rest)
    else if e = chr 102 then some (chr 12,rest)
    else if e = chr 110 then some (chr 10,rest)
    else if e = chr 114 then some (chr 13,rest)
    else if e = chr 116 then some (chr 9,rest)
    else none

/-- A string after its opening quote, up to the closing one. Raw control characters are
refused (`strict`). The number bounds the characters still to be read. -/
def scanString : ℕ → Str → Option (Str × Str)
  | 0, _ => none
  | _+1, [] => none
  | k+1, c::rest =>
    if c = quote then some ([],rest)
    else if c = backslash then do
      let (u,rest) ← scanEscape rest
      let (s,rest) ← scanString k rest
      some (u::s,rest)
    else if c.val < 32 then none
    else do
      let (s,rest) ← scanString k rest
      some (c::s,rest)

def isDigit (c : CodePoint) : Bool := 48 ≤ c.val && c.val ≤ 57

def digitsValue (ds : Str) : ℕ := ds.foldl (fun n c => 10*n+(c.val-48)) 0

/-- An optional part of a number, empty when its digits are missing. -/
def scanFraction (s : Str) : Str × Str :=
  match s with
  | p::rest =>
    if p = chr 46 ∧ (rest.takeWhile isDigit) ≠ [] then
      (p::rest.takeWhile isDigit,rest.dropWhile isDigit)
    else ([],s)
  | [] => ([],s)

def scanExponent (s : Str) : Str × Str :=
  match s with
  | e::rest =>
    if e = chr 101 ∨ e = chr 69 then
      let (sign,rest') := match rest with
        | g::rest' => if g = chr 43 ∨ g = chr 45 then ([g],rest') else ([],rest)
        | [] => ([],rest)
      if rest'.takeWhile isDigit ≠ [] then
        (e::(sign ++ rest'.takeWhile isDigit),rest'.dropWhile isDigit)
      else ([],s)
    else ([],s)
  | [] => ([],s)

/-- What may follow a number without being read as part of it. -/
def Ends (r : Str) : Prop :=
  ∀ c t, r = c::t → isDigit c = false ∧ c ≠ chr 46 ∧ c ≠ chr 101 ∧ c ≠ chr 69

/-- `(-?(?:0|[1-9]\d*))(\.\d+)?([eE][-+]?\d+)?` after the sign; no leading zero. -/
def scanNumber (neg : Bool) (s : Str) : Option (Json × Str) :=
  match s with
  | [] => none
  | d::rest =>
    if isDigit d then
      let ds := if d = chr 48 then [d] else d::rest.takeWhile isDigit
      let rest := if d = chr 48 then rest else rest.dropWhile isDigit
      let (frac,rest) := scanFraction rest
      let (exp,rest) := scanExponent rest
      let sign : Str := if neg then [chr 45] else []
      if frac = [] ∧ exp = [] then
        some (.int (if neg then -(digitsValue ds : ℤ) else digitsValue ds),rest)
      else some (.float (sign ++ ds ++ frac ++ exp),rest)
    else none

/-- The literal words; NaN and the infinities are Python's extension of the syntax. -/
def words : List (Str × Json) :=
  [(Python.str "null",.null),(Python.str "true",.bool true),(Python.str "false",.bool false),
    (Python.str "NaN",.float (Python.str "NaN")),
    (Python.str "Infinity",.float (Python.str "Infinity")),
    (Python.str "-Infinity",.float (Python.str "-Infinity"))]

def scanWord (s : Str) : Option (Json × Str) :=
  (words.find? fun w => w.1.isPrefixOf s).map fun w => (w.2,s.drop w.1.length)

mutual
/-- `scan_once`. The number bounds the calls still to be made. -/
def scanOnce : ℕ → Str → Option (Json × Str)
  | 0, _ => none
  | _+1, [] => none
  | k+1, c::rest =>
    if c = quote then do
      let (s,rest) ← scanString rest.length rest
      some (.str s,rest)
    else if c = chr 123 then
      match skipSpace rest with
      | [] => none
      | d::rest' =>
        if d = chr 125 then some (.obj [],rest') else do
          let (ps,rest) ← scanPairs k (d::rest')
          some (.obj ps,rest)
    else if c = chr 91 then
      match skipSpace rest with
      | [] => none
      | d::rest' =>
        if d = chr 93 then some (.arr [],rest') else do
          let (xs,rest) ← scanItems k (d::rest')
          some (.arr xs,rest)
    else
      match scanWord (c::rest) with
      | some r => some r
      | none => if c = chr 45 then scanNumber true rest else scanNumber false (c::rest)
/-- Pairs up to the closing brace; each key must be a string. -/
def scanPairs : ℕ → Str → Option (List (Str × Json) × Str)
  | 0, _ => none
  | _+1, [] => none
  | k+1, c::rest =>
    if c = quote then do
      let (key,rest) ← scanString rest.length rest
      match skipSpace rest with
      | [] => none
      | d::rest =>
        if d = chr 58 then do
          let (v,rest) ← scanOnce k (skipSpace rest)
          match skipSpace rest with
          | [] => none
          | d::rest =>
            if d = chr 125 then some ([(key,v)],rest)
            else if d = chr 44 then do
              let (ps,rest) ← scanPairs k (skipSpace rest)
              some ((key,v)::ps,rest)
            else none
        else none
    else none
/-- Items up to the closing bracket. -/
def scanItems : ℕ → Str → Option (List Json × Str)
  | 0, _ => none
  | k+1, s => do
    let (x,rest) ← scanOnce k s
    match skipSpace rest with
    | [] => none
    | d::rest =>
      if d = chr 93 then some ([x],rest)
      else if d = chr 44 then do
        let (xs,rest) ← scanItems k (skipSpace rest)
        some (x::xs,rest)
      else none
end

/-- The whole text must be one value between optional white space. -/
def loadsStr (s : Str) : Option Json := do
  let (v,rest) ← scanOnce (s.length+1) (skipSpace s)
  if skipSpace rest = [] then some v else none

/-- `json.loads(raw)` on bytes, none for its JSONDecodeError or UnicodeDecodeError. -/
def loads (raw : Bytes) : Option Json := decodeDetected raw >>= loadsStr

end Json

/-- `isinstance(value, str)` on what a key holds. -/
def strAt (key : String) (v : Json) : Option Str := (v.get (str key)).bind Json.str?

/-- A text or null. -/
def optionJson (s : Option Str) : Json := (s.map Json.str).getD .null

end Python
