import PeerChat.Python.Json
import Mathlib.Tactic.IntervalCases

/-! `loads` inverts `dumps`. Floats are left out: `dumps` writes whatever text they carry. -/
namespace Python.Json

lemma skipSpace_of_head {c : CodePoint} (h : isJsonSpace c = false) (s : Str) :
    skipSpace (c::s) = c::s := by simp [skipSpace,h]

lemma skipSpace_space (s : Str) : skipSpace (chr 32 :: s) = skipSpace s := rfl

/-! Strings. -/

theorem hexValue_hexDigit {n : ℕ} (h : n < 16) : hexValue (hexDigit n) = some n := by
  interval_cases n <;> rfl

lemma scanEscape_short {e c : CodePoint} (h : (e,c) ∈
    [(quote,quote),(backslash,backslash),(chr 110,chr 10),(chr 114,chr 13),(chr 116,chr 9),
      (chr 102,chr 12),(chr 98,chr 8)]) (r : Str) : scanEscape (e::r) = some (c,r) := by
  simp only [List.mem_cons,List.not_mem_nil,or_false,Prod.mk.injEq] at h
  rcases h with ⟨rfl,rfl⟩ | ⟨rfl,rfl⟩ | ⟨rfl,rfl⟩ | ⟨rfl,rfl⟩ | ⟨rfl,rfl⟩ | ⟨rfl,rfl⟩ | ⟨rfl,rfl⟩ <;> rfl

lemma scanEscape_control {c : CodePoint} (h : c.val < 32) (r : Str) :
    scanEscape (chr 117::chr 48::chr 48::hexDigit (c.val/16)::hexDigit (c.val%16)::r) =
      some (c,r) := by
  have h1 := hexValue_hexDigit (n := c.val/16) (by omega)
  have h2 := hexValue_hexDigit (n := c.val%16) (by omega)
  have hz : hexValue (chr 48) = some 0 := rfl
  have hv : (4096*0+256*0+16*(c.val/16)+c.val%16)%0x10000 = c.val := by omega
  have hu : hex4 (chr 48::chr 48::hexDigit (c.val/16)::hexDigit (c.val%16)::r) =
      some (⟨c.val,by omega⟩,r) := by
    simp only [hex4,hz,h1,h2,Option.bind_eq_bind,Option.bind_some,hv]
  have hs : ¬ (0xD800 ≤ c.val ∧ c.val < 0xDC00) := by omega
  simp only [scanEscape,if_pos,hu,Option.bind_eq_bind,Option.bind_some,if_neg hs]
  rfl

/-- Reading takes one written character off the front. -/
theorem scanString_escapeChar (k : ℕ) (c : CodePoint) (t : Str) :
    scanString (k+1) (escapeChar c ++ t) = (scanString k t).map fun p => (c::p.1,p.2) := by
  have hshort : ∀ e, scanEscape (e::t) = some (c,t) → escapeChar c = [backslash,e] →
      scanString (k+1) (escapeChar c ++ t) = (scanString k t).map fun p => (c::p.1,p.2) := by
    intro e he hc
    have hq : (backslash : CodePoint) ≠ quote := by decide
    simp only [hc,List.cons_append,List.nil_append,scanString,if_neg hq,if_pos,he,
      Option.bind_eq_bind,Option.bind_some]
    cases scanString k t <;> rfl
  by_cases h1 : c = quote
  · subst h1; exact hshort quote (scanEscape_short (by simp) t) rfl
  by_cases h2 : c = backslash
  · subst h2; exact hshort backslash (scanEscape_short (by simp) t) rfl
  by_cases h3 : c = chr 10
  · subst h3; exact hshort (chr 110) (scanEscape_short (by simp) t) rfl
  by_cases h4 : c = chr 13
  · subst h4; exact hshort (chr 114) (scanEscape_short (by simp) t) rfl
  by_cases h5 : c = chr 9
  · subst h5; exact hshort (chr 116) (scanEscape_short (by simp) t) rfl
  by_cases h6 : c = chr 12
  · subst h6; exact hshort (chr 102) (scanEscape_short (by simp) t) rfl
  by_cases h7 : c = chr 8
  · subst h7; exact hshort (chr 98) (scanEscape_short (by simp) t) rfl
  by_cases h8 : c.val < 32
  · have hq : (backslash : CodePoint) ≠ quote := by decide
    simp only [escapeChar,if_neg h1,if_neg h2,if_neg h3,if_neg h4,if_neg h5,if_neg h6,if_neg h7,
      if_pos h8,List.cons_append,List.nil_append,scanString,if_neg hq,if_pos,
      scanEscape_control h8,Option.bind_eq_bind,Option.bind_some]
    cases scanString k t <;> rfl
  · simp only [escapeChar,if_neg h1,if_neg h2,if_neg h3,if_neg h4,if_neg h5,if_neg h6,if_neg h7,
      if_neg h8,List.cons_append,List.nil_append,scanString,Option.bind_eq_bind]
    cases scanString k t <;> rfl

lemma escapeChar_length_pos (c : CodePoint) : 0 < (escapeChar c).length := by
  simp only [escapeChar]
  split_ifs <;> simp

theorem scanString_escape (s r : Str) (k : ℕ) (hk : (s.flatMap escapeChar).length < k) :
    scanString k (s.flatMap escapeChar ++ quote :: r) = some (s,r) := by
  induction s generalizing k with
  | nil =>
    obtain ⟨k,rfl⟩ : ∃ j, k = j+1 := ⟨k-1,by omega⟩
    simp [scanString]
  | cons c s ih =>
    have hc := escapeChar_length_pos c
    rw [List.flatMap_cons,List.length_append] at hk
    obtain ⟨k,rfl⟩ : ∃ j, k = j+1 := ⟨k-1,by omega⟩
    rw [List.flatMap_cons,List.append_assoc,scanString_escapeChar,ih k (by omega)]
    rfl

lemma dumpsStr_append (s r : Str) :
    dumpsStr s ++ r = quote :: (s.flatMap escapeChar ++ quote :: r) := by simp [dumpsStr]

lemma scanString_dumpsStr (s r : Str) :
    scanString (s.flatMap escapeChar ++ quote :: r).length (s.flatMap escapeChar ++ quote :: r) =
      some (s,r) :=
  scanString_escape s r _ (by simp)

/-! Numbers. -/

lemma isDigit_hexDigit {n : ℕ} (h : n < 10) : isDigit (hexDigit n) = true := by
  interval_cases n <;> rfl

lemma hexDigit_val {n : ℕ} (h : n < 10) : (hexDigit n).val = 48+n := by
  simp [hexDigit,h]

/-- The value of a digit text with more digits written after it. -/
lemma digitsValue_append (xs ys : Str) :
    digitsValue (xs ++ ys) = ys.foldl (fun n c => 10*n+(c.val-48)) (digitsValue xs) := by
  simp [digitsValue]

lemma digitsFrom_eq (k n : ℕ) (acc : Str) (h : n < k) :
    ∃ ds, digitsFrom k n acc = ds ++ acc ∧ ds ≠ [] ∧ (∀ c ∈ ds, isDigit c = true) ∧
      digitsValue ds = n ∧ (ds.head? = some (chr 48) → n = 0) := by
  induction k generalizing n acc with
  | zero => omega
  | succ k ih =>
    have hm : n%10 < 10 := Nat.mod_lt _ (by omega)
    simp only [digitsFrom]
    split_ifs with hn
    · refine ⟨[hexDigit (n%10)],rfl,by simp,?_,?_,?_⟩
      · simpa using isDigit_hexDigit hm
      · simp only [digitsValue,List.foldl_cons,List.foldl_nil,hexDigit_val hm]
        omega
      · intro hh
        have hv := congrArg Fin.val (Option.some.inj hh)
        rw [hexDigit_val hm] at hv
        change 48+n%10 = 48 at hv
        omega
    · obtain ⟨ds,hd,hne,hall,hval,hhead⟩ := ih (n/10) (hexDigit (n%10)::acc) (by omega)
      refine ⟨ds ++ [hexDigit (n%10)],?_,by simp,?_,?_,?_⟩
      · simp [hd]
      · intro c hc
        rcases List.mem_append.mp hc with hc | hc
        · exact hall c hc
        · rw [List.mem_singleton] at hc
          subst hc
          exact isDigit_hexDigit hm
      · rw [digitsValue_append,hval]
        simp only [List.foldl_cons,List.foldl_nil,hexDigit_val hm]
        omega
      · intro hh
        rw [List.head?_append_of_ne_nil _ hne] at hh
        have := hhead hh
        omega

lemma ends_nil : Ends [] := by intro c t h; cases h

lemma ends_cons {c : CodePoint} (r : Str)
    (h : c = chr 44 ∨ c = chr 125 ∨ c = chr 93 ∨ c = chr 32) : Ends (c::r) := by
  intro d t hd
  cases hd
  rcases h with rfl | rfl | rfl | rfl <;> decide

lemma Ends.takeWhile {r : Str} (h : Ends r) : r.takeWhile isDigit = [] ∧ r.dropWhile isDigit = r := by
  cases r with
  | nil => simp
  | cons c t => simp [(h c t rfl).1]

lemma Ends.scanFraction {r : Str} (h : Ends r) : scanFraction r = ([],r) := by
  cases r with
  | nil => rfl
  | cons c t => simp [Json.scanFraction,(h c t rfl).2.1]

lemma Ends.scanExponent {r : Str} (h : Ends r) : scanExponent r = ([],r) := by
  cases r with
  | nil => rfl
  | cons c t =>
    obtain ⟨-,-,he,hE⟩ := h c t rfl
    simp [Json.scanExponent,he,hE]

theorem scanNumber_dumpsNat (neg : Bool) (n : ℕ) {r : Str} (hr : Ends r) :
    scanNumber neg (dumpsNat n ++ r) = some (.int (if neg then -(n : ℤ) else n),r) := by
  obtain ⟨ds,hd,hne,hall,hval,hhead⟩ := digitsFrom_eq (n+1) n [] (by omega)
  rw [dumpsNat,hd,List.append_nil]
  obtain ⟨d,ds,rfl⟩ := List.exists_cons_of_ne_nil hne
  have hdig : isDigit d = true := hall d (by simp)
  have hds : ∀ c ∈ ds, isDigit c = true := fun c hc => hall c (by simp [hc])
  have htake : (ds ++ r).takeWhile isDigit = ds := by
    rw [List.takeWhile_append_of_pos hds,hr.takeWhile.1,List.append_nil]
  have hdrop : (ds ++ r).dropWhile isDigit = r := by
    rw [List.dropWhile_append_of_pos hds,hr.takeWhile.2]
  simp only [List.cons_append,scanNumber,hdig,if_true,htake,hdrop]
  by_cases h0 : d = chr 48
  · have hn : n = 0 := hhead (by simp [h0])
    have hnil : ds = [] := by
      subst hn
      have h1 : dumpsNat 0 = [chr 48] := rfl
      rw [dumpsNat,hd,List.append_nil] at h1
      exact (List.cons.inj h1).2
    subst hnil
    simp only [List.nil_append,if_pos h0,hr.scanFraction,hr.scanExponent]
    simp [hval]
  · simp only [if_neg h0,hr.scanFraction,hr.scanExponent]
    simp [hval]

lemma dumpsNat_head (n : ℕ) : ∃ d t, dumpsNat n = d::t ∧ isDigit d = true := by
  obtain ⟨ds,hd,hne,hall,-,-⟩ := digitsFrom_eq (n+1) n [] (by omega)
  obtain ⟨d,t,rfl⟩ := List.exists_cons_of_ne_nil hne
  exact ⟨d,t,by rw [dumpsNat,hd,List.append_nil],hall d (by simp)⟩

lemma scanWord_eq_none {s : Str} (h : ∀ w ∈ words.map Prod.fst, w.isPrefixOf s = false) :
    scanWord s = none := by
  have hf : words.find? (fun w => w.1.isPrefixOf s) = none := by
    rw [List.find?_eq_none]
    intro w hw
    simp [h w.1 (List.mem_map_of_mem hw)]
  rw [scanWord,hf]
  rfl

/-- No literal word starts with a digit, nor with a minus sign before a digit. -/
lemma scanWord_of_digit {d : CodePoint} (h : isDigit d = true) (t : Str) :
    scanWord (d::t) = none ∧ scanWord (chr 45::d::t) = none := by
  have hkeys : ∀ w ∈ words.map Prod.fst, ∃ a b p, w = a::b::p ∧ isDigit a = false ∧
      isDigit b = false := by
    intro w hw
    simp only [words,List.map_cons,List.map_nil,List.mem_cons,List.not_mem_nil,or_false] at hw
    rcases hw with rfl | rfl | rfl | rfl | rfl | rfl <;> exact ⟨_,_,_,rfl,rfl,rfl⟩
  have hne : ∀ a : CodePoint, isDigit a = false → (a == d) = false := by
    intro a ha
    refine beq_false_of_ne ?_
    rintro rfl
    rw [h] at ha
    contradiction
  constructor <;> refine scanWord_eq_none fun w hw => ?_
  · obtain ⟨a,b,p,rfl,ha,-⟩ := hkeys w hw
    simp [List.isPrefixOf,hne a ha]
  · obtain ⟨a,b,p,rfl,-,hb⟩ := hkeys w hw
    simp [List.isPrefixOf,hne b hb]

/-- None of the characters that open a string, an object or an array is a digit. -/
lemma digit_ne {d : CodePoint} (h : isDigit d = true) :
    d ≠ quote ∧ d ≠ chr 123 ∧ d ≠ chr 91 ∧ d ≠ chr 45 ∧ d ≠ chr 125 ∧ d ≠ chr 93 := by
  refine ⟨?_,?_,?_,?_,?_,?_⟩ <;> (rintro rfl; revert h; decide)

theorem scanOnce_dumpsInt (k : ℕ) (n : ℤ) {r : Str} (hr : Ends r) :
    scanOnce (k+1) (dumpsInt n ++ r) = some (.int n,r) := by
  cases n with
  | ofNat n =>
    obtain ⟨d,t,hd,hdig⟩ := dumpsNat_head n
    obtain ⟨h1,h2,h3,h4,-,-⟩ := digit_ne hdig
    have hn := scanNumber_dumpsNat false n hr
    simp only [dumpsInt]
    rw [hd,List.cons_append] at hn ⊢
    simp only [scanOnce,if_neg h1,if_neg h2,if_neg h3,if_neg h4,(scanWord_of_digit hdig _).1,hn]
    rfl
  | negSucc n =>
    obtain ⟨d,t,hd,hdig⟩ := dumpsNat_head (n+1)
    have hn := scanNumber_dumpsNat true (n+1) hr
    have h1 : chr 45 ≠ quote := by decide
    have h2 : (chr 45 : CodePoint) ≠ chr 123 := by decide
    have h3 : (chr 45 : CodePoint) ≠ chr 91 := by decide
    simp only [dumpsInt,List.cons_append]
    rw [hd,List.cons_append] at hn ⊢
    simp only [scanOnce,if_neg h1,if_neg h2,if_neg h3,(scanWord_of_digit hdig _).2,hn,if_pos]
    rfl

/-! Values. -/

mutual
/-- No float occurs. -/
def plain : Json → Bool
  | .float _ => false
  | .arr xs => plainItems xs
  | .obj ps => plainPairs ps
  | _ => true
def plainItems : List Json → Bool
  | [] => true
  | x::xs => plain x && plainItems xs
def plainPairs : List (Str × Json) → Bool
  | [] => true
  | (_,v)::ps => plain v && plainPairs ps
end

lemma plainItems_iff (xs : List Json) : plainItems xs = true ↔ ∀ x ∈ xs, plain x = true := by
  induction xs with
  | nil => simp [plainItems]
  | cons x xs ih => simp [plainItems,ih]

lemma plainPairs_iff (ps : List (Str × Json)) :
    plainPairs ps = true ↔ ∀ p ∈ ps, plain p.2 = true := by
  induction ps with
  | nil => simp [plainPairs]
  | cons p ps ih => simp [plainPairs,ih]

/-- What starts a written value: no white space and no closing bracket. -/
lemma dumps_head (j : Json) (h : plain j = true) :
    ∃ c t, dumps j = c::t ∧ isJsonSpace c = false ∧ c ≠ chr 125 ∧ c ≠ chr 93 := by
  have hdigit : ∀ n, ∃ c t, dumpsNat n = c::t ∧ isJsonSpace c = false ∧ c ≠ chr 125 ∧ c ≠ chr 93 := by
    intro n
    obtain ⟨d,t,hd,hdig⟩ := dumpsNat_head n
    obtain ⟨-,-,-,-,h5,h6⟩ := digit_ne hdig
    refine ⟨d,t,hd,?_,h5,h6⟩
    have hne : ∀ m hm, ¬ (48 ≤ m ∧ m ≤ 57) → d ≠ chr m hm := by
      rintro m hm hnd rfl
      exact hnd (by simpa [isDigit] using hdig)
    simp [isJsonSpace,hne 32 (by decide) (by decide),hne 9 (by decide) (by decide),
      hne 10 (by decide) (by decide),hne 13 (by decide) (by decide)]
  match j, h with
  | .null, _ => exact ⟨_,_,rfl,rfl,by decide,by decide⟩
  | .bool true, _ => exact ⟨_,_,rfl,rfl,by decide,by decide⟩
  | .bool false, _ => exact ⟨_,_,rfl,rfl,by decide,by decide⟩
  | .int (.ofNat n), _ => simpa [dumps,dumpsInt] using hdigit n
  | .int (.negSucc n), _ => exact ⟨chr 45,dumpsNat (n+1),rfl,rfl,by decide,by decide⟩
  | .str s, _ => exact ⟨_,_,rfl,rfl,by decide,by decide⟩
  | .arr [], _ => exact ⟨_,_,rfl,rfl,by decide,by decide⟩
  | .arr (x::xs), _ => exact ⟨_,_,rfl,rfl,by decide,by decide⟩
  | .obj [], _ => exact ⟨_,_,rfl,rfl,by decide,by decide⟩
  | .obj ((k,v)::ps), _ => exact ⟨_,_,rfl,rfl,by decide,by decide⟩

lemma dumpsItems_ends (xs : List Json) (r : Str) : Ends (dumpsItems xs ++ r) := by
  cases xs <;> exact ends_cons _ (by decide)

lemma dumpsPairs_ends (ps : List (Str × Json)) (r : Str) : Ends (dumpsPairs ps ++ r) := by
  match ps with
  | [] => exact ends_cons _ (by decide)
  | (k,v)::ps => exact ends_cons _ (by decide)

lemma dumps_length_pos (j : Json) (h : plain j = true) : 0 < (dumps j).length := by
  obtain ⟨c,t,hd,-⟩ := dumps_head j h
  simp [hd]

lemma skipSpace_dumps {j : Json} (h : plain j = true) (r : Str) :
    skipSpace (dumps j ++ r) = dumps j ++ r := by
  obtain ⟨c,t,hd,hc,-⟩ := dumps_head j h
  rw [hd]
  exact skipSpace_of_head hc _

lemma scanOnce_dumpsStr (s : Str) (k : ℕ) (r : Str) :
    scanOnce (k+1) (dumpsStr s ++ r) = some (.str s,r) := by
  rw [dumpsStr_append]
  simp only [scanOnce,if_pos,scanString_dumpsStr]
  rfl

/-- After an item the text goes on with the rest of the array, read already. -/
lemma scanItems_step {k : ℕ} {x : Json} {xs : List Json} {r : Str}
    (hx : scanOnce k (dumps x ++ (dumpsItems xs ++ r)) = some (x,dumpsItems xs ++ r))
    (hxs : ∀ y ys, xs = y::ys → plain y = true ∧
      scanItems k (dumps y ++ (dumpsItems ys ++ r)) = some (y::ys,r)) :
    scanItems (k+1) (dumps x ++ (dumpsItems xs ++ r)) = some (x::xs,r) := by
  simp only [scanItems,hx,Option.bind_eq_bind,Option.bind_some]
  cases xs with
  | nil =>
    have hs : skipSpace (dumpsItems [] ++ r) = chr 93 :: r := rfl
    simp only [hs,if_pos]
  | cons y ys =>
    obtain ⟨hy,hys⟩ := hxs y ys rfl
    have hs : skipSpace (dumpsItems (y::ys) ++ r) =
        chr 44 :: chr 32 :: (dumps y ++ (dumpsItems ys ++ r)) := by
      simp only [dumpsItems,List.cons_append,List.append_assoc]
      rfl
    have hne : (chr 44 : CodePoint) ≠ chr 93 := by decide
    simp only [hs,if_neg hne,if_pos,skipSpace_space,skipSpace_dumps hy,hys,Option.bind_some]

/-- The same after a pair of an object. -/
lemma scanPairs_step {k : ℕ} {key : Str} {v : Json} {ps : List (Str × Json)} {r : Str}
    (hp : plain v = true)
    (hv : scanOnce k (dumps v ++ (dumpsPairs ps ++ r)) = some (v,dumpsPairs ps ++ r))
    (hps : ∀ l w qs, ps = (l,w)::qs →
      scanPairs k (dumpsStr l ++ chr 58 :: chr 32 :: (dumps w ++ (dumpsPairs qs ++ r))) =
        some ((l,w)::qs,r)) :
    scanPairs (k+1) (dumpsStr key ++ chr 58 :: chr 32 :: (dumps v ++ (dumpsPairs ps ++ r))) =
      some ((key,v)::ps,r) := by
  have hcolon : ∀ t, skipSpace (chr 58 :: t) = chr 58 :: t := fun t => rfl
  rw [dumpsStr_append]
  simp only [scanPairs,if_pos,scanString_dumpsStr,Option.bind_eq_bind,Option.bind_some,hcolon,
    skipSpace_space,skipSpace_dumps hp,hv]
  match ps, hps with
  | [], _ =>
    have hs : skipSpace (dumpsPairs [] ++ r) = chr 125 :: r := rfl
    simp only [hs,if_pos]
  | (l,w)::qs, hps =>
    have hqs := hps l w qs rfl
    have hs : skipSpace (dumpsPairs ((l,w)::qs) ++ r) = chr 44 :: chr 32 ::
        (dumpsStr l ++ chr 58 :: chr 32 :: (dumps w ++ (dumpsPairs qs ++ r))) := by
      simp only [dumpsPairs,List.cons_append,List.append_assoc]
      rfl
    have hne : (chr 44 : CodePoint) ≠ chr 125 := by decide
    have hk : ∀ t, skipSpace (dumpsStr l ++ t) = dumpsStr l ++ t := fun t => rfl
    simp only [hs,if_neg hne,if_pos,skipSpace_space,hk,hqs,Option.bind_some]

mutual
/-- Reading a written value stops right after it. The length is enough fuel: every call
consumes a character. -/
theorem scanOnce_dumps : ∀ (j : Json) (k : ℕ) (r : Str), plain j = true →
    (dumps j).length ≤ k → Ends r → scanOnce k (dumps j ++ r) = some (j,r)
  | j, 0, _, h, hk, _ => by
    have := dumps_length_pos j h
    omega
  | .null, _+1, _, _, _, _ => rfl
  | .bool true, _+1, _, _, _, _ => rfl
  | .bool false, _+1, _, _, _, _ => rfl
  | .int n, k+1, _, _, _, hr => scanOnce_dumpsInt k n hr
  | .float _, _, _, h, _, _ => by simp [plain] at h
  | .str s, k+1, r, _, _, _ => scanOnce_dumpsStr s k r
  | .arr [], _+1, _, _, _, _ => rfl
  | .arr (x::xs), k+1, r, h, hk, _ => by
    simp only [plain,plainItems,Bool.and_eq_true] at h
    simp only [dumps,List.length_cons,List.length_append] at hk
    have hxs := scanItems_dumps x xs k r h.1 h.2 (by simp only [List.length_append]; omega)
    obtain ⟨c,t,hd,hc,-,hb⟩ := dumps_head x h.1
    have h1 : (chr 91 : CodePoint) ≠ quote := by decide
    have h2 : (chr 91 : CodePoint) ≠ chr 123 := by decide
    simp only [dumps,List.cons_append,List.append_assoc]
    rw [hd,List.cons_append] at hxs ⊢
    simp only [scanOnce,if_neg h1,if_neg h2,if_pos,skipSpace_of_head hc,if_neg hb,hxs,
      Option.bind_eq_bind,Option.bind_some]
  | .obj [], _+1, _, _, _, _ => rfl
  | .obj ((key,v)::ps), k+1, r, h, hk, _ => by
    simp only [plain,plainPairs,Bool.and_eq_true] at h
    simp only [dumps,List.length_cons,List.length_append] at hk
    have hps := scanPairs_dumps key v ps k r h.1 h.2
      (by simp only [List.length_append,List.length_cons]; omega)
    have h1 : (chr 123 : CodePoint) ≠ quote := by decide
    have h2 : quote ≠ (chr 125 : CodePoint) := by decide
    have hq : ∀ t, skipSpace (quote :: t) = quote :: t := fun t => rfl
    simp only [dumps,List.cons_append,List.append_assoc]
    rw [dumpsStr_append] at hps ⊢
    simp only [scanOnce,if_neg h1,if_pos,hq,if_neg h2,hps,Option.bind_eq_bind,Option.bind_some]
theorem scanItems_dumps : ∀ (x : Json) (xs : List Json) (k : ℕ) (r : Str), plain x = true →
    plainItems xs = true → (dumps x ++ dumpsItems xs).length ≤ k →
    scanItems k (dumps x ++ (dumpsItems xs ++ r)) = some (x::xs,r)
  | x, xs, 0, _, h, _, hk => by
    have := dumps_length_pos x h
    simp only [List.length_append] at hk
    omega
  | x, xs, k+1, r, h, hxs, hk => by
    simp only [List.length_append] at hk
    have hpos : 0 < (dumpsItems xs).length := by cases xs <;> simp [dumpsItems]
    refine scanItems_step
      (scanOnce_dumps x k _ h (by omega) (dumpsItems_ends xs r)) ?_
    rintro y ys rfl
    simp only [plainItems,Bool.and_eq_true] at hxs
    simp only [dumpsItems,List.length_cons,List.length_append] at hk
    exact ⟨hxs.1,scanItems_dumps y ys k r hxs.1 hxs.2 (by simp only [List.length_append]; omega)⟩
theorem scanPairs_dumps : ∀ (key : Str) (v : Json) (ps : List (Str × Json)) (k : ℕ) (r : Str),
    plain v = true → plainPairs ps = true →
    (dumpsStr key ++ chr 58 :: chr 32 :: (dumps v ++ dumpsPairs ps)).length ≤ k →
    scanPairs k (dumpsStr key ++ chr 58 :: chr 32 :: (dumps v ++ (dumpsPairs ps ++ r))) =
      some ((key,v)::ps,r)
  | key, v, ps, 0, _, _, _, hk => by simp at hk
  | key, v, ps, k+1, r, h, hps, hk => by
    simp only [List.length_append,List.length_cons] at hk
    refine scanPairs_step h
      (scanOnce_dumps v k _ h (by omega) (dumpsPairs_ends ps r)) ?_
    rintro l w qs rfl
    simp only [plainPairs,Bool.and_eq_true] at hps
    simp only [dumpsPairs,List.length_cons,List.length_append] at hk
    exact scanPairs_dumps l w qs k r hps.1 hps.2
      (by simp only [List.length_append,List.length_cons]; omega)
end

/-- Spaces after a value are skipped. -/
theorem loadsStr_dumps_append (j : Json) (h : plain j = true) (n : ℕ) :
    loadsStr (dumps j ++ List.replicate n (chr 32)) = some j := by
  have hends : Ends (List.replicate n (chr 32)) := by
    cases n with
    | zero => exact ends_nil
    | succ n => exact ends_cons _ (by simp)
  have hskip : skipSpace (List.replicate n (chr 32)) = [] :=
    List.dropWhile_eq_nil_iff.mpr fun c hc => by
      rw [List.eq_of_mem_replicate hc]
      decide
  have hscan := scanOnce_dumps j ((dumps j ++ List.replicate n (chr 32)).length+1) _ h
    (by simp only [List.length_append]; omega) hends
  simp only [loadsStr,skipSpace_dumps h,hscan,Option.bind_eq_bind,Option.bind_some,hskip,if_true]

/-- `json.loads(json.dumps(value, ensure_ascii=False))` on text. -/
theorem loadsStr_dumps (j : Json) (h : plain j = true) : loadsStr (dumps j) = some j := by
  simpa using loadsStr_dumps_append j h 0

/-- A text that starts with two ASCII characters is detected as UTF-8. -/
theorem loads_encode {s : Str} {bs : Bytes} (henc : Utf8.encode s = some bs) {a b : CodePoint}
    {t : Str} (hd : s = a::b::t) (ha : 0 < a.val ∧ a.val < 0x80) (hb : 0 < b.val ∧ b.val < 0x80) :
    loads bs = loadsStr s := by
  have hdec := Utf8.decode_encode henc
  have hone : ∀ c : CodePoint, c.val < 0x80 → Utf8.encodeChar c = [Utf8.byte c.val] := by
    intro c hc
    simp [Utf8.encodeChar,hc]
  have hz : ∀ n, 0 < n → n < 0x80 → Utf8.byte n ≠ 0 := by
    intro n hn hn' he
    have := congrArg UInt8.toNat he
    rw [Utf8.byte_toNat (by omega)] at this
    simp only [UInt8.toNat_zero] at this
    omega
  have hbs : bs = Utf8.byte a.val :: Utf8.byte b.val :: t.flatMap Utf8.encodeChar := by
    rw [hd] at henc
    simp only [Utf8.encode] at henc
    split_ifs at henc
    cases henc
    simp [hone a ha.2,hone b hb.2]
  have hdet : decodeDetected bs = Utf8.decode bs := by
    rw [hbs]
    exact decodeDetected_of_ascii (hz _ ha.1 ha.2) (hz _ hb.1 hb.2)
      (by rw [Utf8.byte_toNat (by omega)]; exact ha.2) _
  rw [loads,hdet,hdec]
  rfl

/-- The same through the wire encoding, for a value whose text starts with two ASCII
characters and is therefore detected as UTF-8. -/
theorem loads_encode_dumps {j : Json} (h : plain j = true) {bs : Bytes}
    (henc : Utf8.encode (dumps j) = some bs) {a b : CodePoint} {t : Str}
    (hd : dumps j = a::b::t) (ha : 0 < a.val ∧ a.val < 0x80) (hb : 0 < b.val ∧ b.val < 0x80) :
    loads bs = some j := by
  rw [loads_encode henc hd ha hb]
  exact loadsStr_dumps j h

end Python.Json
