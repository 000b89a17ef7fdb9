import Mathlib.Data.List.Find
import PeerChat.Python.JsonLength

/-! `json.dumps` as it is called without `ensure_ascii=False`: every character outside ASCII is written
as one escape, or as the escapes of its two surrogates. To a reader the escapes make no difference. -/
namespace Python.Json

lemma letter_u_lt : 117 < 0x110000 := by decide

def hexUnit (n : ℕ) : Str :=
  [backslash,chr 117 letter_u_lt,hexDigit (n/4096%16),hexDigit (n/256%16),hexDigit (n/16%16),hexDigit (n%16)]

/-- One character of the text. In `dumps` a control character is escaped already. -/
def asciiChar (c : CodePoint) : Str :=
  if c.val < 127 then [c]
  else if c.val < 0x10000 then hexUnit c.val
  else hexUnit (0xD800+(c.val-0x10000)/1024) ++ hexUnit (0xDC00+(c.val-0x10000)%1024)

def ascii (s : Str) : Str := s.flatMap asciiChar

/-- `json.dumps(value)`. -/
def dumpsAscii (v : Json) : Str := ascii (dumps v)

@[simp] lemma ascii_nil : ascii [] = [] := rfl

@[simp] lemma ascii_append (s t : Str) : ascii (s ++ t) = ascii s ++ ascii t := List.flatMap_append

lemma ascii_cons (c : CodePoint) (s : Str) : ascii (c::s) = asciiChar c ++ ascii s := rfl

lemma ascii_cons_of_lt {c : CodePoint} (h : c.val < 127) (s : Str) : ascii (c::s) = c :: ascii s := by
  rw [ascii_cons,asciiChar,if_pos h]
  rfl

/-- What is not ASCII begins with a backslash. -/
lemma ascii_cons_of_le {c : CodePoint} (h : ¬ c.val < 127) (s : Str) :
    ∃ d t, ascii (c::s) = backslash :: chr 117 :: d :: t := by
  rw [ascii_cons,asciiChar,if_neg h]
  split_ifs
  · exact ⟨_,_,rfl⟩
  · exact ⟨_,_,rfl⟩

lemma asciiChar_lt (c : CodePoint) : ∀ d ∈ asciiChar c, d.val < 127 := by
  have hhex : ∀ n, (hexDigit (n%16)).val < 127 := by
    intro n
    unfold hexDigit
    split_ifs
    · change 48+n%16 < 127
      omega
    · change 87+n%16%16 < 127
      omega
  have hunit : ∀ n, ∀ d ∈ hexUnit n, d.val < 127 := by
    intro n d hd
    simp only [hexUnit,List.mem_cons,List.not_mem_nil,or_false] at hd
    obtain rfl | rfl | rfl | rfl | rfl | rfl := hd
    · decide
    · decide
    · exact hhex _
    · exact hhex _
    · exact hhex _
    · exact hhex _
  unfold asciiChar
  split_ifs with hlow
  · intro d hd
    rw [List.mem_singleton.mp hd]
    exact hlow
  · exact hunit _
  · intro d hd
    obtain hd | hd := List.mem_append.mp hd
    · exact hunit _ d hd
    · exact hunit _ d hd

theorem ascii_lt (s : Str) : ∀ d ∈ ascii s, d.val < 127 := by
  intro d hd
  obtain ⟨c,-,hd⟩ := List.mem_flatMap.mp hd
  exact asciiChar_lt c d hd

/-! The parts of the reader. -/

section
variable {P : CodePoint → Bool} (hP : ∀ c, P c = true → c.val < 127) (hb : P backslash = false)
include hP hb

lemma takeWhile_ascii (s : Str) : (ascii s).takeWhile P = s.takeWhile P := by
  induction s with
  | nil => rfl
  | cons c s ih =>
    by_cases hc : c.val < 127
    · rw [ascii_cons_of_lt hc,List.takeWhile_cons,List.takeWhile_cons,ih]
    · have hnot : P c = false := by
        by_contra hne
        exact hc (hP c (by simpa using hne))
      obtain ⟨d,t,heq⟩ := ascii_cons_of_le hc s
      rw [heq,List.takeWhile_cons_of_neg (by simp [hb]),List.takeWhile_cons_of_neg (by simp [hnot])]

lemma dropWhile_ascii (s : Str) : (ascii s).dropWhile P = ascii (s.dropWhile P) := by
  induction s with
  | nil => rfl
  | cons c s ih =>
    by_cases hc : c.val < 127
    · rw [ascii_cons_of_lt hc,List.dropWhile_cons,List.dropWhile_cons,ih]
      split_ifs
      · rfl
      · rw [ascii_cons_of_lt hc]
    · have hnot : P c = false := by
        by_contra hne
        exact hc (hP c (by simpa using hne))
      obtain ⟨d,t,heq⟩ := ascii_cons_of_le hc s
      rw [List.dropWhile_cons_of_neg (by simp [hnot]),heq,List.dropWhile_cons_of_neg (by simp [hb])]

end

lemma isDigit_lt {c : CodePoint} (h : isDigit c = true) : c.val < 127 := by
  simp only [isDigit,Bool.and_eq_true,decide_eq_true_eq] at h
  omega

lemma isJsonSpace_lt {c : CodePoint} (h : isJsonSpace c = true) : c.val < 127 := by
  simp only [isJsonSpace,Bool.or_eq_true,beq_iff_eq] at h
  obtain ((rfl | rfl) | rfl) | rfl := h <;> decide

lemma skipSpace_ascii (s : Str) : skipSpace (ascii s) = ascii (skipSpace s) :=
  dropWhile_ascii (fun _ => isJsonSpace_lt) rfl s

lemma takeWhile_digit_ascii (s : Str) : (ascii s).takeWhile isDigit = s.takeWhile isDigit :=
  takeWhile_ascii (fun _ => isDigit_lt) rfl s

lemma dropWhile_digit_ascii (s : Str) : (ascii s).dropWhile isDigit = ascii (s.dropWhile isDigit) :=
  dropWhile_ascii (fun _ => isDigit_lt) rfl s

lemma scanFraction_ascii (s : Str) :
    scanFraction (ascii s) = ((scanFraction s).1,ascii (scanFraction s).2) := by
  cases s with
  | nil => rfl
  | cons p rest =>
    by_cases hp : p.val < 127
    · simp only [ascii_cons_of_lt hp,scanFraction,takeWhile_digit_ascii,dropWhile_digit_ascii]
      split_ifs
      · rfl
      · rw [ascii_cons_of_lt hp]
    · obtain ⟨d,t,heq⟩ := ascii_cons_of_le hp rest
      have hne : p ≠ chr 46 := by
        intro h
        rw [h] at hp
        exact hp (by decide)
      have hbs : (backslash : CodePoint) ≠ chr 46 := by decide
      have hnone : scanFraction (p::rest) = ([],p::rest) := by
        simp only [scanFraction,hne,false_and,if_false]
      rw [hnone,heq]
      simp only [scanFraction,hbs,false_and,if_false]

lemma scanExponent_ascii (s : Str) :
    scanExponent (ascii s) = ((scanExponent s).1,ascii (scanExponent s).2) := by
  cases s with
  | nil => rfl
  | cons e rest =>
    by_cases he : e.val < 127
    · rw [ascii_cons_of_lt he]
      by_cases hexp : e = chr 101 ∨ e = chr 69
      · simp only [scanExponent,if_pos hexp]
        -- the sign
        have hsign : ∀ (sign t : Str),
            (if (ascii t).takeWhile isDigit ≠ [] then
              (e::(sign ++ (ascii t).takeWhile isDigit),(ascii t).dropWhile isDigit)
              else ([],e::ascii rest)) =
            ((if t.takeWhile isDigit ≠ [] then
                (e::(sign ++ t.takeWhile isDigit),t.dropWhile isDigit) else ([],e::rest)).1,
              ascii (if t.takeWhile isDigit ≠ [] then
                (e::(sign ++ t.takeWhile isDigit),t.dropWhile isDigit) else ([],e::rest)).2) := by
          intro sign t
          rw [takeWhile_digit_ascii,dropWhile_digit_ascii]
          split_ifs
          · rfl
          · rw [ascii_cons_of_lt he]
        cases rest with
        | nil => exact hsign [] []
        | cons g t =>
          by_cases hg : g.val < 127
          · rw [ascii_cons_of_lt hg] at hsign ⊢
            by_cases hs : g = chr 43 ∨ g = chr 45
            · simp only [if_pos hs]
              exact hsign [g] t
            · simp only [if_neg hs]
              have h := hsign [] (g::t)
              rw [ascii_cons_of_lt hg] at h
              exact h
          · have hns : ¬ (g = chr 43 ∨ g = chr 45) := by
              intro h
              obtain rfl | rfl := h <;> exact hg (by decide)
            have h := hsign [] (g::t)
            obtain ⟨d,t',heq⟩ := ascii_cons_of_le hg t
            have hbs : ¬ ((backslash : CodePoint) = chr 43 ∨ (backslash : CodePoint) = chr 45) := by
              decide
            rw [heq] at h ⊢
            simp only [if_neg hns,if_neg hbs]
            exact h
      · simp only [scanExponent,if_neg hexp]
        rw [ascii_cons_of_lt he]
    · obtain ⟨d,t,heq⟩ := ascii_cons_of_le he rest
      have hne : ¬ (e = chr 101 ∨ e = chr 69) := by
        intro h
        obtain rfl | rfl := h <;> exact he (by decide)
      have hbs : ¬ ((backslash : CodePoint) = chr 101 ∨ (backslash : CodePoint) = chr 69) := by decide
      have hnone : scanExponent (e::rest) = ([],e::rest) := by
        simp only [scanExponent,if_neg hne]
      rw [hnone,heq]
      simp only [scanExponent,if_neg hbs]

lemma scanNumber_ascii {neg : Bool} {s r : Str} {v : Json} (h : scanNumber neg s = some (v,r)) :
    scanNumber neg (ascii s) = some (v,ascii r) := by
  cases s with
  | nil => cases h
  | cons d rest =>
    cases hd : isDigit d with
    | false => simp [scanNumber,hd] at h
    | true =>
      rw [ascii_cons_of_lt (isDigit_lt hd)]
      simp only [scanNumber,hd,if_true,takeWhile_digit_ascii,dropWhile_digit_ascii] at h ⊢
      have hrest : (if d = chr 48 then ascii rest else ascii (rest.dropWhile isDigit)) =
          ascii (if d = chr 48 then rest else rest.dropWhile isDigit) := by
        split_ifs <;> rfl
      rw [hrest,scanFraction_ascii]
      dsimp only
      rw [scanExponent_ascii]
      dsimp only
      split_ifs at h ⊢
      all_goals
        obtain ⟨rfl,rfl⟩ := Prod.mk.inj (Option.some.inj h)
        rfl

/-- Words of ASCII letters are found where they were. -/
lemma isPrefixOf_ascii {w : Str} (hw : ∀ c ∈ w, c.val < 127 ∧ c ≠ backslash) (s : Str) :
    w.isPrefixOf (ascii s) = w.isPrefixOf s ∧
      (w.isPrefixOf s = true → (ascii s).drop w.length = ascii (s.drop w.length)) := by
  induction w generalizing s with
  | nil => simp
  | cons a w ih =>
    obtain ⟨ha,hab⟩ := hw a (by simp)
    have hrest : ∀ c ∈ w, c.val < 127 ∧ c ≠ backslash := fun c hc => hw c (List.mem_cons_of_mem _ hc)
    cases s with
    | nil => simp
    | cons c s =>
      by_cases hc : c.val < 127
      · obtain ⟨hpre,hdrop⟩ := ih hrest s
        rw [ascii_cons_of_lt hc]
        simp only [List.isPrefixOf,hpre,Bool.and_eq_true,List.length_cons,List.drop_succ_cons,true_and]
        exact fun h => hdrop h.2
      · obtain ⟨d,t,heq⟩ := ascii_cons_of_le hc s
        have hac : (a == c) = false := by
          refine beq_false_of_ne ?_
          rintro rfl
          exact hc ha
        have hbs : (a == backslash) = false := beq_false_of_ne hab
        rw [heq]
        simp [List.isPrefixOf,hac,hbs]

lemma words_ascii : ∀ w ∈ words, w.1 ≠ [] ∧ ∀ c ∈ w.1, c.val < 127 ∧ c ≠ backslash := by
  have hall : words.all (fun w => w.1 ≠ [] && w.1.all fun c => c.val < 127 && c != backslash) = true := by
    decide +kernel
  intro w hw
  have h := List.all_eq_true.mp hall w hw
  rw [Bool.and_eq_true,decide_eq_true_eq] at h
  refine ⟨h.1,fun c hc => ?_⟩
  simpa using List.all_eq_true.mp h.2 c hc

lemma scanWord_ascii (s : Str) :
    scanWord (ascii s) = (scanWord s).map fun p => (p.1,ascii p.2) := by
  unfold scanWord
  have hfind : (words.find? fun w => w.1.isPrefixOf (ascii s)) =
      words.find? fun w => w.1.isPrefixOf s :=
    List.find?_congr fun w hw => (isPrefixOf_ascii (words_ascii w hw).2 s).1
  rw [hfind,Option.map_map]
  cases hw : words.find? fun w => w.1.isPrefixOf s with
  | none => rfl
  | some w =>
    have hpre : w.1.isPrefixOf s = true := by simpa using List.find?_some hw
    have hmem := List.mem_of_find?_eq_some hw
    simp only [Option.map_some,Function.comp_apply]
    rw [(isPrefixOf_ascii (words_ascii w hmem).2 s).2 hpre]

/-! Strings. -/

lemma hexValue_lt {c : CodePoint} {n : ℕ} (h : hexValue c = some n) : c.val < 127 := by
  unfold hexValue at h
  split_ifs at h <;> omega

lemma hex4_ascii {s r : Str} {u : Fin 0x10000} (h : hex4 s = some (u,r)) :
    hex4 (ascii s) = some (u,ascii r) := by
  match s, h with
  | a::b::c::d::rest, h =>
    simp only [hex4,Option.bind_eq_bind,Option.bind_eq_some_iff] at h
    obtain ⟨na,ha,nb,hb,nc,hc,nd,hd,h⟩ := h
    obtain ⟨rfl,rfl⟩ := Prod.mk.inj (Option.some.inj h)
    rw [ascii_cons_of_lt (hexValue_lt ha),ascii_cons_of_lt (hexValue_lt hb),
      ascii_cons_of_lt (hexValue_lt hc),ascii_cons_of_lt (hexValue_lt hd)]
    simp only [hex4,ha,hb,hc,hd,Option.bind_eq_bind,Option.bind_some]

lemma isSurrogate_ofUnit {u : Fin 0x10000} (h : 0xD800 ≤ u.val ∧ u.val < 0xDC00) :
    isSurrogate (ofUnit u) = true := by
  have hval : (ofUnit u).val = u.val := rfl
  unfold isSurrogate
  rw [hval,Bool.and_eq_true,decide_eq_true_eq,decide_eq_true_eq]
  omega

lemma scanEscape_ascii {s r : Str} {c : CodePoint} (h : scanEscape s = some (c,r))
    (hc : isSurrogate c = false) : scanEscape (ascii s) = some (c,ascii r) := by
  cases s with
  | nil => cases h
  | cons e rest =>
    by_cases he : e = chr 117
    · subst he
      rw [ascii_cons_of_lt (by decide)]
      simp only [scanEscape,if_true,Option.bind_eq_bind,Option.bind_eq_some_iff] at h ⊢
      obtain ⟨⟨u,r₁⟩,hu,h⟩ := h
      refine ⟨_,hex4_ascii hu,?_⟩
      dsimp only at h ⊢
      split_ifs at h ⊢ with hhigh
      · -- a surrogate by itself is no scalar value, so a low one follows
        have hlone : ∀ t : Str, some (ofUnit u,t) ≠ some (c,r) := by
          intro t heq
          obtain ⟨rfl,-⟩ := Prod.mk.inj (Option.some.inj heq)
          rw [isSurrogate_ofUnit hhigh] at hc
          cases hc
        cases r₁ with
        | nil => exact absurd h (hlone _)
        | cons b r₁ =>
        cases r₁ with
        | nil => exact absurd h (hlone _)
        | cons v tail =>
          dsimp only at h
          split_ifs at h with hbv
          · obtain ⟨rfl,rfl⟩ := hbv
            rw [ascii_cons_of_lt (by decide),ascii_cons_of_lt (by decide)]
            simp only [Option.bind_eq_some_iff] at h
            obtain ⟨⟨w,r₂⟩,hw,h⟩ := h
            dsimp only at h
            split_ifs at h with hlow
            · obtain ⟨rfl,rfl⟩ := Prod.mk.inj (Option.some.inj h)
              simp only [and_self,if_true,hex4_ascii hw,Option.bind_some,if_pos hlow]
            · exact absurd h (hlone _)
          · exact absurd h (hlone _)
      · obtain ⟨rfl,rfl⟩ := Prod.mk.inj (Option.some.inj h)
        rfl
    · have hlt : e.val < 127 := by
        simp only [scanEscape,if_neg he] at h
        split_ifs at h with h1 h2 h3 h4 h5 h6
        · obtain rfl | rfl | rfl := h1 <;> decide
        · subst h2; decide
        · subst h3; decide
        · subst h4; decide
        · subst h5; decide
        · subst h6; decide
      rw [ascii_cons_of_lt hlt]
      simp only [scanEscape,if_neg he] at h ⊢
      split_ifs at h ⊢
      all_goals
        obtain ⟨rfl,rfl⟩ := Prod.mk.inj (Option.some.inj h)
        rfl

/-- The four digits of a unit are read back. -/
lemma hex4_hexUnit {n : ℕ} (h : n < 0x10000) (t : Str) :
    hex4 ((hexUnit n).drop 2 ++ t) = some (⟨n,h⟩,t) := by
  have hv : (4096*(n/4096%16)+256*(n/256%16)+16*(n/16%16)+n%16)%0x10000 = n := by omega
  simp only [hexUnit,List.drop_succ_cons,List.drop_zero,List.cons_append,List.nil_append,hex4,
    hexValue_hexDigit (Nat.mod_lt _ (by decide)),Option.bind_eq_bind,Option.bind_some,hv]

lemma hexUnit_eq (n : ℕ) : hexUnit n = backslash :: chr 117 :: (hexUnit n).drop 2 := rfl

lemma scanEscape_unit {n : ℕ} (h : n < 0x10000) (hhigh : ¬ (0xD800 ≤ n ∧ n < 0xDC00)) (t : Str) :
    scanEscape (chr 117 :: ((hexUnit n).drop 2 ++ t)) = some (ofUnit ⟨n,h⟩,t) := by
  simp only [scanEscape,if_true,hex4_hexUnit h,Option.bind_eq_bind,Option.bind_some,if_neg hhigh]

lemma scanEscape_pair {hi lo : ℕ} (h : 0xD800 ≤ hi ∧ hi < 0xDC00) (h' : 0xDC00 ≤ lo ∧ lo < 0xE000)
    (t : Str) : scanEscape (chr 117 :: ((hexUnit hi).drop 2 ++ (hexUnit lo ++ t))) =
      some (⟨(0x10000+1024*(hi-0xD800)+(lo-0xDC00))%0x110000,Nat.mod_lt _ (by decide)⟩,t) := by
  have hhi : hi < 0x10000 := by omega
  have hlo : lo < 0x10000 := by omega
  have hread := hex4_hexUnit hhi (hexUnit lo ++ t)
  have hread' := hex4_hexUnit hlo t
  rw [hexUnit_eq lo,List.cons_append,List.cons_append] at hread ⊢
  simp only [scanEscape,if_true,hread,Option.bind_eq_bind,Option.bind_some,if_pos h,and_self,hread',
    if_pos h']

/-- A scalar value outside ASCII is read back from its escapes. -/
lemma scanEscape_asciiChar {c : CodePoint} (hc : isSurrogate c = false) (h : ¬ c.val < 127) (t : Str) :
    ∃ x, asciiChar c ++ t = backslash :: x ∧ scanEscape x = some (c,t) := by
  have hsur : c.val < 0xD800 ∨ 0xDFFF < c.val := by
    by_contra hin
    have hyes : isSurrogate c = true := by
      unfold isSurrogate
      rw [Bool.and_eq_true,decide_eq_true_eq,decide_eq_true_eq]
      omega
    rw [hyes] at hc
    cases hc
  unfold asciiChar
  rw [if_neg h]
  split_ifs with hlow
  · exact ⟨_,rfl,scanEscape_unit hlow (by omega) t⟩
  · have hval := c.isLt
    have hpair := @scanEscape_pair (0xD800+(c.val-0x10000)/1024)
      (0xDC00+(c.val-0x10000)%1024) (by omega) (by omega) t
    have hjoin : (0x10000+1024*(0xD800+(c.val-0x10000)/1024-0xD800)+
        (0xDC00+(c.val-0x10000)%1024-0xDC00))%0x110000 = c.val := by omega
    rw [List.append_assoc]
    refine ⟨_,rfl,hpair.trans ?_⟩
    simp only [hjoin]

lemma scanString_ascii {k k' : ℕ} (hk : k ≤ k') {t s r : Str} (h : scanString k t = some (s,r))
    (hs : Scalar s) : scanString k' (ascii t) = some (s,ascii r) := by
  induction k generalizing t s k' with
  | zero => cases h
  | succ k ih =>
    obtain ⟨j,rfl⟩ : ∃ j, k' = j+1 := ⟨k'-1,by omega⟩
    have hj : k ≤ j := by omega
    cases t with
    | nil => cases h
    | cons c rest =>
      by_cases hquote : c = quote
      · subst hquote
        simp only [scanString,if_true] at h
        obtain ⟨rfl,rfl⟩ := Prod.mk.inj (Option.some.inj h)
        rw [ascii_cons_of_lt (by decide)]
        simp only [scanString,if_true]
      · by_cases hback : c = backslash
        · subst hback
          simp only [scanString,if_neg hquote,if_true,Option.bind_eq_bind,
            Option.bind_eq_some_iff] at h
          obtain ⟨⟨u,r₁⟩,hu,⟨s₁,r₂⟩,hrest,h⟩ := h
          obtain ⟨rfl,rfl⟩ := Prod.mk.inj (Option.some.inj h)
          rw [scalar_cons] at hs
          rw [ascii_cons_of_lt (by decide)]
          simp only [scanString,if_neg hquote,if_true,scanEscape_ascii hu hs.1,
            ih hj hrest hs.2,Option.bind_eq_bind,Option.bind_some]
        · simp only [scanString,if_neg hquote,if_neg hback] at h
          split_ifs at h with hcontrol
          simp only [Option.bind_eq_bind,Option.bind_eq_some_iff] at h
          obtain ⟨⟨s₁,r₂⟩,hrest,h⟩ := h
          obtain ⟨rfl,rfl⟩ := Prod.mk.inj (Option.some.inj h)
          rw [scalar_cons] at hs
          have hgo := ih hj hrest hs.2
          by_cases hlt : c.val < 127
          · rw [ascii_cons_of_lt hlt]
            simp only [scanString,if_neg hquote,if_neg hback,if_neg hcontrol,hgo,
              Option.bind_eq_bind,Option.bind_some]
          · obtain ⟨x,hx,hread⟩ := scanEscape_asciiChar hs.1 hlt (ascii rest)
            rw [ascii_cons,hx]
            have hne : (backslash : CodePoint) ≠ quote := by decide
            simp only [scanString,if_neg hne,if_true,hread,hgo,Option.bind_eq_bind,Option.bind_some]

/-! Values. -/

/-- The strings in the value, keys included, are of scalar values. -/
def ScalarTexts (v : Json) : Prop := Scalar (dumps v)

lemma length_le_ascii (s : Str) : s.length ≤ (ascii s).length := by
  induction s with
  | nil => simp
  | cons c s ih =>
    have hpos : 0 < (asciiChar c).length := by
      unfold asciiChar
      split_ifs <;> simp [hexUnit]
    rw [ascii_cons,List.length_append,List.length_cons]
    omega

lemma scanWord_head {c : CodePoint} {t : Str} {p : Json × Str} (h : scanWord (c::t) = some p) :
    c.val < 127 := by
  unfold scanWord at h
  obtain ⟨w,hw,-⟩ := Option.map_eq_some_iff.mp h
  obtain ⟨hne,hascii⟩ := words_ascii w (List.mem_of_find?_eq_some hw)
  have hpre : w.1.isPrefixOf (c::t) = true := by simpa using List.find?_some hw
  cases hword : w.1 with
  | nil => exact absurd hword hne
  | cons a x =>
    rw [hword] at hpre hascii
    simp only [List.isPrefixOf,Bool.and_eq_true,beq_iff_eq] at hpre
    rw [← hpre.1]
    exact (hascii a (by simp)).1

/-- What starts a value is of ASCII. -/
lemma scanOnce_head {k : ℕ} {c : CodePoint} {t : Str} {p : Json × Str}
    (h : scanOnce k (c::t) = some p) : c.val < 127 := by
  cases k with
  | zero => cases h
  | succ k =>
    by_cases hquote : c = quote
    · subst hquote
      decide
    by_cases hbrace : c = chr 123
    · subst hbrace
      decide
    by_cases hbracket : c = chr 91
    · subst hbracket
      decide
    simp only [scanOnce,if_neg hquote,if_neg hbrace,if_neg hbracket] at h
    cases hw : scanWord (c::t) with
    | some q => exact scanWord_head hw
    | none =>
      simp only [hw] at h
      by_cases hminus : c = chr 45
      · subst hminus
        decide
      · rw [if_neg hminus] at h
        cases hd : isDigit c with
        | true => exact isDigit_lt hd
        | false => simp [scanNumber,hd] at h

lemma scanItems_head {k : ℕ} {c : CodePoint} {t : Str} {p : List Json × Str}
    (h : scanItems k (c::t) = some p) : c.val < 127 := by
  cases k with
  | zero => cases h
  | succ k =>
    simp only [scanItems,Option.bind_eq_bind,Option.bind_eq_some_iff] at h
    obtain ⟨q,hq,-⟩ := h
    exact scanOnce_head hq

lemma scanPairs_head {k : ℕ} {c : CodePoint} {t : Str} {p : List (Str × Json) × Str}
    (h : scanPairs k (c::t) = some p) : c = quote := by
  cases k with
  | zero => cases h
  | succ k =>
    by_contra hne
    simp [scanPairs,hne] at h

/-- A value that is no string, array or object. -/
lemma scanOnce_atom_ascii {k k' : ℕ} {c : CodePoint} {rest r : Str} {v : Json} (hquote : c ≠ quote)
    (hbrace : c ≠ chr 123) (hbracket : c ≠ chr 91) (h : scanOnce (k+1) (c::rest) = some (v,r)) :
    scanOnce (k'+1) (ascii (c::rest)) = some (v,ascii r) := by
  have hlt := scanOnce_head h
  have hword := scanWord_ascii (c::rest)
  rw [ascii_cons_of_lt hlt] at hword ⊢
  simp only [scanOnce,if_neg hquote,if_neg hbrace,if_neg hbracket,hword] at h ⊢
  cases hw : scanWord (c::rest) with
  | some q =>
    simp only [hw,Option.map_some] at h ⊢
    obtain rfl := Option.some.inj h
    rfl
  | none =>
    simp only [hw,Option.map_none] at h ⊢
    split_ifs at h ⊢
    · exact scanNumber_ascii h
    · rw [← ascii_cons_of_lt hlt]
      exact scanNumber_ascii h

mutual
theorem scanOnce_ascii : ∀ (k k' : ℕ) (t : Str) (v : Json) (r : Str), k ≤ k' →
    scanOnce k t = some (v,r) → ScalarTexts v → scanOnce k' (ascii t) = some (v,ascii r)
  | 0, _, _, _, _, _, h, _ => by cases h
  | k+1, k', [], v, r, hk, h, hv => by cases h
  | k+1, k', c::rest, v, r, hk, h, hv => by
    obtain ⟨j,rfl⟩ : ∃ j, k' = j+1 := ⟨k'-1,by omega⟩
    have hj : k ≤ j := by omega
    by_cases hquote : c = quote
    · subst hquote
      simp only [scanOnce,if_true,Option.bind_eq_bind,Option.bind_eq_some_iff] at h
      obtain ⟨⟨s,r₁⟩,hs,h⟩ := h
      obtain ⟨rfl,rfl⟩ := Prod.mk.inj (Option.some.inj h)
      have hscalar : Scalar s := by simpa [ScalarTexts] using hv
      rw [ascii_cons_of_lt (by decide)]
      simp only [scanOnce,if_true,scanString_ascii (length_le_ascii rest) hs hscalar,
        Option.bind_eq_bind,Option.bind_some]
    by_cases hbrace : c = chr 123
    · subst hbrace
      simp only [scanOnce,if_neg hquote,if_true] at h
      rw [ascii_cons_of_lt (by decide)]
      simp only [scanOnce,if_neg hquote,if_true,skipSpace_ascii]
      cases hskip : skipSpace rest with
      | nil => simp [hskip] at h
      | cons d rest' =>
        simp only [hskip] at h
        by_cases hclose : d = chr 125
        · subst hclose
          rw [if_pos rfl] at h
          obtain ⟨rfl,rfl⟩ := Prod.mk.inj (Option.some.inj h)
          rw [ascii_cons_of_lt (by decide)]
          simp only [if_true]
        · rw [if_neg hclose] at h
          simp only [Option.bind_eq_bind,Option.bind_eq_some_iff] at h
          obtain ⟨⟨ps,r₁⟩,hps,h⟩ := h
          obtain ⟨rfl,rfl⟩ := Prod.mk.inj (Option.some.inj h)
          have hd := scanPairs_head hps
          have hread := scanPairs_ascii k j _ ps r₁ hj hps ((scalar_dumps_obj ps).mp hv)
          rw [ascii_cons_of_lt (by rw [hd]; decide)] at hread ⊢
          simp only [if_neg hclose,hread,Option.bind_eq_bind,Option.bind_some]
    by_cases hbracket : c = chr 91
    · subst hbracket
      simp only [scanOnce,if_neg hquote,if_neg hbrace,if_true] at h
      rw [ascii_cons_of_lt (by decide)]
      simp only [scanOnce,if_neg hquote,if_neg hbrace,if_true,skipSpace_ascii]
      cases hskip : skipSpace rest with
      | nil => simp [hskip] at h
      | cons d rest' =>
        simp only [hskip] at h
        by_cases hclose : d = chr 93
        · subst hclose
          rw [if_pos rfl] at h
          obtain ⟨rfl,rfl⟩ := Prod.mk.inj (Option.some.inj h)
          rw [ascii_cons_of_lt (by decide)]
          simp only [if_true]
        · rw [if_neg hclose] at h
          simp only [Option.bind_eq_bind,Option.bind_eq_some_iff] at h
          obtain ⟨⟨xs,r₁⟩,hxs,h⟩ := h
          obtain ⟨rfl,rfl⟩ := Prod.mk.inj (Option.some.inj h)
          have hread := scanItems_ascii k j _ xs r₁ hj hxs ((scalar_dumps_arr xs).mp hv)
          rw [ascii_cons_of_lt (scanItems_head hxs)] at hread ⊢
          simp only [if_neg hclose,hread,Option.bind_eq_bind,Option.bind_some]
    exact scanOnce_atom_ascii hquote hbrace hbracket h
theorem scanPairs_ascii : ∀ (k k' : ℕ) (t : Str) (ps : List (Str × Json)) (r : Str), k ≤ k' →
    scanPairs k t = some (ps,r) → (∀ p ∈ ps, Scalar p.1 ∧ ScalarTexts p.2) →
    scanPairs k' (ascii t) = some (ps,ascii r)
  | 0, _, _, _, _, _, h, _ => by cases h
  | k+1, k', [], ps, r, hk, h, hps => by cases h
  | k+1, k', c::rest, ps, r, hk, h, hps => by
    obtain ⟨j,rfl⟩ : ∃ j, k' = j+1 := ⟨k'-1,by omega⟩
    have hj : k ≤ j := by omega
    obtain rfl := scanPairs_head h
    simp only [scanPairs,if_true,Option.bind_eq_bind,Option.bind_eq_some_iff] at h
    obtain ⟨⟨key,r₁⟩,hkey,h⟩ := h
    rw [ascii_cons_of_lt (by decide)]
    cases hcolon : skipSpace r₁ with
    | nil => simp [hcolon] at h
    | cons d rest₁ =>
      simp only [hcolon] at h
      split_ifs at h with hd
      subst hd
      simp only [Option.bind_eq_some_iff] at h
      obtain ⟨⟨v,r₂⟩,hv,h⟩ := h
      have hvalue : ScalarTexts v → scanOnce j (skipSpace (ascii rest₁)) = some (v,ascii r₂) := by
        rw [skipSpace_ascii]
        exact scanOnce_ascii k j _ v r₂ hj hv
      have hcolon' : skipSpace (ascii r₁) = chr 58 :: ascii rest₁ := by
        rw [skipSpace_ascii,hcolon,ascii_cons_of_lt (by decide)]
      have hread : Scalar key → scanString (ascii rest).length (ascii rest) = some (key,ascii r₁) :=
        scanString_ascii (length_le_ascii rest) hkey
      cases hskip : skipSpace r₂ with
      | nil => simp [hskip] at h
      | cons e rest₂ =>
        simp only [hskip] at h
        by_cases hclose : e = chr 125
        · subst hclose
          rw [if_pos rfl] at h
          obtain ⟨rfl,rfl⟩ := Prod.mk.inj (Option.some.inj h)
          obtain ⟨hk₁,hv₁⟩ := hps (key,v) (by simp)
          have hskip' : skipSpace (ascii r₂) = chr 125 :: ascii rest₂ := by
            rw [skipSpace_ascii,hskip,ascii_cons_of_lt (by decide)]
          simp only [scanPairs,if_true,hread hk₁,hcolon',hvalue hv₁,Option.bind_eq_bind,
            Option.bind_some,hskip']
        · rw [if_neg hclose] at h
          split_ifs at h with hcomma
          subst hcomma
          simp only [Option.bind_eq_some_iff] at h
          obtain ⟨⟨qs,r₃⟩,hqs,h⟩ := h
          obtain ⟨rfl,rfl⟩ := Prod.mk.inj (Option.some.inj h)
          obtain ⟨hk₁,hv₁⟩ := hps (key,v) (by simp)
          have hrest := scanPairs_ascii k j _ qs r₃ hj hqs fun p hp =>
            hps p (List.mem_cons_of_mem _ hp)
          rw [← skipSpace_ascii] at hrest
          have hskip' : skipSpace (ascii r₂) = chr 44 :: ascii rest₂ := by
            rw [skipSpace_ascii,hskip,ascii_cons_of_lt (by decide)]
          simp only [scanPairs,if_true,hread hk₁,hcolon',hvalue hv₁,Option.bind_eq_bind,
            Option.bind_some,hskip',if_neg hclose,hrest]
theorem scanItems_ascii : ∀ (k k' : ℕ) (t : Str) (xs : List Json) (r : Str), k ≤ k' →
    scanItems k t = some (xs,r) → (∀ x ∈ xs, ScalarTexts x) →
    scanItems k' (ascii t) = some (xs,ascii r)
  | 0, _, _, _, _, _, h, _ => by cases h
  | k+1, k', t, xs, r, hk, h, hxs => by
    obtain ⟨j,rfl⟩ : ∃ j, k' = j+1 := ⟨k'-1,by omega⟩
    have hj : k ≤ j := by omega
    simp only [scanItems,Option.bind_eq_bind,Option.bind_eq_some_iff] at h
    obtain ⟨⟨x,r₁⟩,hx,h⟩ := h
    have hfirst : ScalarTexts x → scanOnce j (ascii t) = some (x,ascii r₁) :=
      scanOnce_ascii k j t x r₁ hj hx
    cases hskip : skipSpace r₁ with
    | nil => simp [hskip] at h
    | cons d rest =>
      simp only [hskip] at h
      by_cases hclose : d = chr 93
      · subst hclose
        rw [if_pos rfl] at h
        obtain ⟨rfl,rfl⟩ := Prod.mk.inj (Option.some.inj h)
        have hskip' : skipSpace (ascii r₁) = chr 93 :: ascii rest := by
          rw [skipSpace_ascii,hskip,ascii_cons_of_lt (by decide)]
        simp only [scanItems,hfirst (hxs x (by simp)),Option.bind_eq_bind,Option.bind_some,hskip',
          if_true]
      · rw [if_neg hclose] at h
        split_ifs at h with hcomma
        subst hcomma
        simp only [Option.bind_eq_some_iff] at h
        obtain ⟨⟨ys,r₂⟩,hys,h⟩ := h
        obtain ⟨rfl,rfl⟩ := Prod.mk.inj (Option.some.inj h)
        have hread := scanItems_ascii k j _ ys r₂ hj hys fun y hy => hxs y (List.mem_cons_of_mem _ hy)
        rw [← skipSpace_ascii] at hread
        have hskip' : skipSpace (ascii r₁) = chr 44 :: ascii rest := by
          rw [skipSpace_ascii,hskip,ascii_cons_of_lt (by decide)]
        simp only [scanItems,hfirst (hxs x (by simp)),Option.bind_eq_bind,Option.bind_some,hskip',
          if_neg hclose,if_true,hread]
end

/-- To a reader the escapes make no difference. -/
theorem loadsStr_ascii {t : Str} {v : Json} (h : loadsStr t = some v) (hv : ScalarTexts v) :
    loadsStr (ascii t) = some v := by
  simp only [loadsStr,Option.bind_eq_bind,Option.bind_eq_some_iff] at h
  obtain ⟨⟨w,r⟩,hread,h⟩ := h
  split_ifs at h with hend
  obtain rfl := Option.some.inj h
  have hlength := length_le_ascii t
  have hread' := scanOnce_ascii _ ((ascii t).length+1) _ w r (by omega) hread hv
  simp only [loadsStr,skipSpace_ascii,hread',Option.bind_eq_bind,Option.bind_some,hend]
  rfl

/-- `json.loads(json.dumps(value))` on text. -/
theorem loadsStr_dumpsAscii {v : Json} (h : plain v = true) (hv : ScalarTexts v) :
    loadsStr (dumpsAscii v) = some v := loadsStr_ascii (loadsStr_dumps v h) hv

/-- The text has a UTF-8 form of one byte a character. -/
lemma encode_ascii (s : Str) :
    Utf8.encode (ascii s) = some ((ascii s).map fun c => Utf8.byte c.val) := by
  have hlt := ascii_lt s
  have hscalar : Scalar (ascii s) := by
    intro c hc
    have hc := hlt c hc
    exact isSurrogate_of_lt (by omega)
  have hbytes : ∀ t : Str, (∀ c ∈ t, c.val < 127) →
      t.flatMap Utf8.encodeChar = t.map fun c => Utf8.byte c.val := by
    intro t ht
    induction t with
    | nil => rfl
    | cons c t ih =>
      have hc := ht c (by simp)
      have hone : Utf8.encodeChar c = [Utf8.byte c.val] := by
        unfold Utf8.encodeChar
        rw [if_pos (by omega)]
      rw [List.flatMap_cons,hone,List.map_cons,ih fun d hd => ht d (List.mem_cons_of_mem _ hd)]
      rfl
  rw [encode_of_scalar hscalar,hbytes _ hlt]

/-- The bytes tell the text. -/
lemma encode_ascii_injective {s t : Str} (h : Utf8.encode (ascii s) = Utf8.encode (ascii t)) :
    ascii s = ascii t := by
  have hback : ∀ u, ((ascii u).map fun c => Utf8.byte c.val).map UInt8.toNat =
      (ascii u).map Fin.val := by
    intro u
    rw [List.map_map]
    refine List.map_congr_left fun c hc => ?_
    have hlt := ascii_lt u c hc
    exact Utf8.byte_toNat (by omega)
  rw [encode_ascii,encode_ascii] at h
  have hmap := congrArg (List.map UInt8.toNat) (Option.some.inj h)
  rw [hback,hback] at hmap
  exact List.map_injective_iff.mpr Fin.val_injective hmap

/-! A written value stays on one line: it has no control character. -/

/-- No control character. -/
def Printable (s : Str) : Prop := ∀ c ∈ s, 32 ≤ c.val

lemma printable_of_all {s : Str} (h : s.all (fun c => 32 ≤ c.val) = true) : Printable s := by
  intro c hc
  simpa using List.all_eq_true.mp h c hc

@[simp] lemma printable_nil : Printable [] := by simp [Printable]

@[simp] lemma printable_cons (c : CodePoint) (s : Str) :
    Printable (c::s) ↔ 32 ≤ c.val ∧ Printable s := by simp [Printable]

@[simp] lemma printable_append (s t : Str) : Printable (s ++ t) ↔ Printable s ∧ Printable t := by
  simp only [Printable,List.mem_append]
  constructor
  · exact fun h => ⟨fun c hc => h c (Or.inl hc),fun c hc => h c (Or.inr hc)⟩
  · exact fun h c hc => hc.elim (h.1 c) (h.2 c)

lemma hexDigit_printable (n : ℕ) : 32 ≤ (hexDigit n).val := by
  unfold hexDigit
  split_ifs
  · change 32 ≤ 48+n
    omega
  · change 32 ≤ 87+n%16
    omega

lemma printable_escapeChar (c : CodePoint) : Printable (escapeChar c) := by
  have hd := hexDigit_printable
  unfold escapeChar
  split_ifs with h1 h2 h3 h4 h5 h6 h7 h8
  all_goals simp only [printable_cons,printable_nil,hd,and_true]
  all_goals first | decide | omega

lemma printable_dumpsStr (s : Str) : Printable (dumpsStr s) := by
  have hflat : Printable (s.flatMap escapeChar) := by
    intro d hd
    obtain ⟨c,-,hd⟩ := List.mem_flatMap.mp hd
    exact printable_escapeChar c d hd
  have hq : 32 ≤ quote.val := by decide
  simp [dumpsStr,hflat,hq]

lemma printable_dumpsNat (n : ℕ) : Printable (dumpsNat n) := by
  have hdigits : ∀ (k m : ℕ) (acc : Str), Printable acc → Printable (digitsFrom k m acc) := by
    intro k
    induction k with
    | zero => exact fun _ _ h => h
    | succ k ih =>
      intro m acc hacc
      have hcons : Printable (hexDigit (m%10) :: acc) := by
        simp [hexDigit_printable,hacc]
      unfold digitsFrom
      dsimp only
      split_ifs
      · exact hcons
      · exact ih _ _ hcons
  exact hdigits _ _ _ printable_nil

lemma printable_dumpsInt (n : ℤ) : Printable (dumpsInt n) := by
  have hm : 32 ≤ (chr 45).val := by decide
  cases n with
  | ofNat n => exact printable_dumpsNat n
  | negSucc n => simp [dumpsInt,hm,printable_dumpsNat]

mutual
theorem printable_dumps : ∀ v : Json, plain v = true → Printable (dumps v)
  | .null, _ => by rw [dumps]; exact printable_of_all (by decide +kernel)
  | .bool true, _ => by rw [dumps]; exact printable_of_all (by decide +kernel)
  | .bool false, _ => by rw [dumps]; exact printable_of_all (by decide +kernel)
  | .int n, _ => by rw [dumps]; exact printable_dumpsInt n
  | .float _, h => by simp [plain] at h
  | .str s, _ => by rw [dumps]; exact printable_dumpsStr s
  | .arr [], _ => by rw [dumps]; exact printable_of_all (by decide +kernel)
  | .arr (x::xs), h => by
    simp only [plain,plainItems,Bool.and_eq_true] at h
    have hb : 32 ≤ (chr 91).val := by decide
    simp [dumps,hb,printable_dumps x h.1,printable_dumpsItems xs h.2]
  | .obj [], _ => by rw [dumps]; exact printable_of_all (by decide +kernel)
  | .obj ((k,v)::ps), h => by
    simp only [plain,plainPairs,Bool.and_eq_true] at h
    have hb : ∀ n ∈ [123,58,32], ∀ hn, 32 ≤ (chr n hn).val := by decide
    simp [dumps,hb,printable_dumpsStr,printable_dumps v h.1,printable_dumpsPairs ps h.2]
theorem printable_dumpsItems : ∀ xs : List Json, plainItems xs = true → Printable (dumpsItems xs)
  | [], _ => by rw [dumpsItems]; exact printable_of_all (by decide +kernel)
  | x::xs, h => by
    simp only [plainItems,Bool.and_eq_true] at h
    have hb : ∀ n ∈ [44,32], ∀ hn, 32 ≤ (chr n hn).val := by decide
    simp [dumpsItems,hb,printable_dumps x h.1,printable_dumpsItems xs h.2]
theorem printable_dumpsPairs : ∀ ps : List (Str × Json), plainPairs ps = true →
    Printable (dumpsPairs ps)
  | [], _ => by rw [dumpsPairs]; exact printable_of_all (by decide +kernel)
  | (k,v)::ps, h => by
    simp only [plainPairs,Bool.and_eq_true] at h
    have hb : ∀ n ∈ [44,32,58], ∀ hn, 32 ≤ (chr n hn).val := by decide
    simp [dumpsPairs,hb,printable_dumpsStr,printable_dumps v h.1,printable_dumpsPairs ps h.2]
end

lemma printable_ascii {s : Str} (h : Printable s) : Printable (ascii s) := by
  have hunit : ∀ n, Printable (hexUnit n) := by
    intro n
    have hb : 32 ≤ backslash.val ∧ 32 ≤ (chr 117).val := by decide
    simp [hexUnit,hb,hexDigit_printable]
  intro d hd
  obtain ⟨c,hc,hd⟩ := List.mem_flatMap.mp hd
  unfold asciiChar at hd
  split_ifs at hd
  · rw [List.mem_singleton.mp hd]
    exact h c hc
  · exact hunit _ d hd
  · obtain hd | hd := List.mem_append.mp hd
    · exact hunit _ d hd
    · exact hunit _ d hd

lemma newline_not_mem_dumpsAscii {v : Json} (h : plain v = true) : chr 10 ∉ dumpsAscii v := by
  intro hmem
  have hprint := printable_ascii (printable_dumps v h) _ hmem
  revert hprint
  decide

/-- Different values have different texts. -/
theorem dumpsAscii_injective {v w : Json} (hv : plain v = true) (hw : plain w = true)
    (hsv : ScalarTexts v) (hsw : ScalarTexts w) (h : dumpsAscii v = dumpsAscii w) : v = w := by
  have hread := loadsStr_dumpsAscii hv hsv
  rw [h,loadsStr_dumpsAscii hw hsw] at hread
  exact (Option.some.inj hread).symm

end Python.Json
