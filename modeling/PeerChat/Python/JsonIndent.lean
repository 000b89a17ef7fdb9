import PeerChat.Python.JsonAscii
import PeerChat.Python.JsonObject

/-! `json.dumps(value, indent=2)`, and how it is read back. -/
namespace Python.Json

lemma newline_lt : 10 < 0x110000 := by decide
lemma space_lt : 32 < 0x110000 := by decide
lemma comma_lt : 44 < 0x110000 := by decide
lemma colon_lt : 58 < 0x110000 := by decide
lemma openBracket_lt : 91 < 0x110000 := by decide
lemma closeBracket_lt : 93 < 0x110000 := by decide
lemma openBrace_lt : 123 < 0x110000 := by decide
lemma closeBrace_lt : 125 < 0x110000 := by decide

def lineBreak (level : ℕ) : Str := chr 10 newline_lt :: List.replicate (2*level) (chr 32 space_lt)

mutual
/-- The text at this level, before it is made ASCII. -/
def indented (level : ℕ) : Json → Str
  | .null => Python.str "null"
  | .bool true => Python.str "true"
  | .bool false => Python.str "false"
  | .int n => dumpsInt n
  | .float lexeme => lexeme
  | .str s => dumpsStr s
  | .arr [] => Python.str "[]"
  | .arr (x::xs) =>
    chr 91 openBracket_lt ::
      (lineBreak (level+1) ++ (indented (level+1) x ++ indentedItems level xs))
  | .obj [] => chr 123 openBrace_lt :: [chr 125 closeBrace_lt]
  | .obj ((k,v)::ps) => chr 123 openBrace_lt :: (lineBreak (level+1) ++
      (dumpsStr k ++ chr 58 colon_lt :: chr 32 space_lt ::
        (indented (level+1) v ++ indentedPairs level ps)))
/-- The items after the first, and the closing bracket. -/
def indentedItems (level : ℕ) : List Json → Str
  | [] => lineBreak level ++ [chr 93 closeBracket_lt]
  | x::xs =>
    chr 44 comma_lt :: (lineBreak (level+1) ++ (indented (level+1) x ++ indentedItems level xs))
/-- The pairs after the first, and the closing brace. -/
def indentedPairs (level : ℕ) : List (Str × Json) → Str
  | [] => lineBreak level ++ [chr 125 closeBrace_lt]
  | (k,v)::ps => chr 44 comma_lt :: (lineBreak (level+1) ++
      (dumpsStr k ++ chr 58 colon_lt :: chr 32 space_lt ::
        (indented (level+1) v ++ indentedPairs level ps)))
end

/-- `json.dumps(value, indent=2)`. -/
def dumpsIndent (v : Json) : Str := ascii (indented 0 v)

lemma skipSpace_lineBreak (level : ℕ) (s : Str) : skipSpace (lineBreak level ++ s) = skipSpace s := by
  have hblank : ∀ n, skipSpace (List.replicate n (chr 32) ++ s) = skipSpace s := by
    intro n
    induction n with
    | zero => rfl
    | succ n ih => exact ih
  exact hblank (2*level)

lemma lineBreak_ends (level : ℕ) (s : Str) : Ends (lineBreak level ++ s) := by
  intro c t h
  obtain ⟨rfl,-⟩ := List.cons.inj h
  decide

/-- What starts a written value: no white space and no closing bracket. -/
lemma indented_head (level : ℕ) (j : Json) (h : plain j = true) :
    ∃ c t, indented level j = c::t ∧ isJsonSpace c = false ∧ c ≠ chr 125 ∧ c ≠ chr 93 := by
  match j, h with
  | .null, _ => exact ⟨_,_,rfl,rfl,by decide,by decide⟩
  | .bool true, _ => exact ⟨_,_,rfl,rfl,by decide,by decide⟩
  | .bool false, _ => exact ⟨_,_,rfl,rfl,by decide,by decide⟩
  | .int n, h =>
    have hd := dumps_head (.int n) h
    rw [dumps] at hd
    rwa [indented]
  | .str s, _ => exact ⟨_,_,rfl,rfl,by decide,by decide⟩
  | .arr [], _ => exact ⟨_,_,rfl,rfl,by decide,by decide⟩
  | .arr (x::xs), _ => exact ⟨_,_,rfl,rfl,by decide,by decide⟩
  | .obj [], _ => exact ⟨_,_,rfl,rfl,by decide,by decide⟩
  | .obj ((k,v)::ps), _ => exact ⟨_,_,rfl,rfl,by decide,by decide⟩

lemma indented_length_pos (level : ℕ) {j : Json} (h : plain j = true) :
    0 < (indented level j).length := by
  obtain ⟨c,t,hd,-⟩ := indented_head level j h
  simp [hd]

lemma skipSpace_indented (level : ℕ) {j : Json} (h : plain j = true) (r : Str) :
    skipSpace (indented level j ++ r) = indented level j ++ r := by
  obtain ⟨c,t,hd,hc,-⟩ := indented_head level j h
  rw [hd]
  exact skipSpace_of_head hc _

lemma indentedItems_ends (level : ℕ) (xs : List Json) (r : Str) :
    Ends (indentedItems level xs ++ r) := by
  cases xs with
  | nil =>
    rw [indentedItems,List.append_assoc]
    exact lineBreak_ends level _
  | cons x xs =>
    rw [indentedItems]
    exact ends_cons _ (by decide)

lemma indentedPairs_ends (level : ℕ) (ps : List (Str × Json)) (r : Str) :
    Ends (indentedPairs level ps ++ r) := by
  cases ps with
  | nil =>
    rw [indentedPairs,List.append_assoc]
    exact lineBreak_ends level _
  | cons p ps =>
    rw [indentedPairs]
    exact ends_cons _ (by decide)

/-- After an item the text goes on with the rest of the array, read already. -/
lemma scanItems_indented_step {level k : ℕ} {x : Json} {xs : List Json} {r : Str}
    (hx : scanOnce k (indented (level+1) x ++ (indentedItems level xs ++ r)) =
      some (x,indentedItems level xs ++ r))
    (hxs : ∀ y ys, xs = y::ys → plain y = true ∧
      scanItems k (indented (level+1) y ++ (indentedItems level ys ++ r)) = some (y::ys,r)) :
    scanItems (k+1) (indented (level+1) x ++ (indentedItems level xs ++ r)) = some (x::xs,r) := by
  simp only [scanItems,hx,Option.bind_eq_bind,Option.bind_some]
  cases xs with
  | nil =>
    have hs : skipSpace (indentedItems level [] ++ r) = chr 93 :: r := by
      rw [indentedItems,List.append_assoc,skipSpace_lineBreak]
      rfl
    simp only [hs,if_pos]
  | cons y ys =>
    obtain ⟨hy,hys⟩ := hxs y ys rfl
    have hs : skipSpace (indentedItems level (y::ys) ++ r) = chr 44 ::
        (lineBreak (level+1) ++ (indented (level+1) y ++ (indentedItems level ys ++ r))) := by
      simp only [indentedItems,List.cons_append,List.append_assoc]
      rfl
    have hne : (chr 44 : CodePoint) ≠ chr 93 := by decide
    simp only [hs,if_neg hne,if_pos,skipSpace_lineBreak,skipSpace_indented (level+1) hy,hys,
      Option.bind_some]

/-- The same after a pair of an object. -/
lemma scanPairs_indented_step {level k : ℕ} {key : Str} {v : Json} {ps : List (Str × Json)}
    {r : Str} (hp : plain v = true)
    (hv : scanOnce k (indented (level+1) v ++ (indentedPairs level ps ++ r)) =
      some (v,indentedPairs level ps ++ r))
    (hps : ∀ l w qs, ps = (l,w)::qs → scanPairs k (dumpsStr l ++ chr 58 :: chr 32 ::
      (indented (level+1) w ++ (indentedPairs level qs ++ r))) = some ((l,w)::qs,r)) :
    scanPairs (k+1) (dumpsStr key ++ chr 58 :: chr 32 ::
      (indented (level+1) v ++ (indentedPairs level ps ++ r))) = some ((key,v)::ps,r) := by
  have hcolon : ∀ t, skipSpace (chr 58 :: t) = chr 58 :: t := fun t => rfl
  rw [dumpsStr_append]
  simp only [scanPairs,if_pos,scanString_dumpsStr,Option.bind_eq_bind,Option.bind_some,hcolon,
    skipSpace_space,skipSpace_indented (level+1) hp,hv]
  cases ps with
  | nil =>
    have hs : skipSpace (indentedPairs level [] ++ r) = chr 125 :: r := by
      rw [indentedPairs,List.append_assoc,skipSpace_lineBreak]
      rfl
    simp only [hs,if_pos]
  | cons p qs =>
    obtain ⟨l,w⟩ := p
    have hqs := hps l w qs rfl
    have hs : skipSpace (indentedPairs level ((l,w)::qs) ++ r) = chr 44 :: (lineBreak (level+1) ++
        (dumpsStr l ++ chr 58 :: chr 32 ::
          (indented (level+1) w ++ (indentedPairs level qs ++ r)))) := by
      simp only [indentedPairs,List.cons_append,List.append_assoc]
      rfl
    have hne : (chr 44 : CodePoint) ≠ chr 125 := by decide
    have hk : ∀ t, skipSpace (dumpsStr l ++ t) = dumpsStr l ++ t := fun t => rfl
    simp only [hs,if_neg hne,if_pos,skipSpace_lineBreak,hk,hqs,Option.bind_some]

mutual
/-- Reading a written value stops right after it. -/
theorem scanOnce_indented : ∀ (level : ℕ) (j : Json) (k : ℕ) (r : Str), plain j = true →
    (indented level j).length ≤ k → Ends r → scanOnce k (indented level j ++ r) = some (j,r)
  | level, j, 0, _, h, hk, _ => by
    have := indented_length_pos level h
    omega
  | _, .null, _+1, _, _, _, _ => rfl
  | _, .bool true, _+1, _, _, _, _ => rfl
  | _, .bool false, _+1, _, _, _, _ => rfl
  | _, .int n, k+1, _, _, _, hr => by rw [indented]; exact scanOnce_dumpsInt k n hr
  | _, .float _, _, _, h, _, _ => by simp [plain] at h
  | _, .str s, k+1, r, _, _, _ => by rw [indented]; exact scanOnce_dumpsStr s k r
  | _, .arr [], _+1, _, _, _, _ => rfl
  | level, .arr (x::xs), k+1, r, h, hk, _ => by
    simp only [plain,plainItems,Bool.and_eq_true] at h
    simp only [indented,List.length_cons,List.length_append] at hk
    have hxs := scanItems_indented level x xs k r h.1 h.2 (by simp only [List.length_append]; omega)
    obtain ⟨c,t,hd,hc,-,hb⟩ := indented_head (level+1) x h.1
    have h1 : (chr 91 : CodePoint) ≠ quote := by decide
    have h2 : (chr 91 : CodePoint) ≠ chr 123 := by decide
    simp only [indented,List.cons_append,List.append_assoc]
    rw [hd,List.cons_append] at hxs ⊢
    simp only [scanOnce,if_neg h1,if_neg h2,if_pos,skipSpace_lineBreak,skipSpace_of_head hc,
      if_neg hb,hxs,Option.bind_eq_bind,Option.bind_some]
  | _, .obj [], _+1, _, _, _, _ => rfl
  | level, .obj ((key,v)::ps), k+1, r, h, hk, _ => by
    simp only [plain,plainPairs,Bool.and_eq_true] at h
    simp only [indented,List.length_cons,List.length_append] at hk
    have hps := scanPairs_indented level key v ps k r h.1 h.2
      (by simp only [List.length_append,List.length_cons]; omega)
    have h1 : (chr 123 : CodePoint) ≠ quote := by decide
    have h2 : quote ≠ (chr 125 : CodePoint) := by decide
    have hq : ∀ t, skipSpace (quote :: t) = quote :: t := fun t => rfl
    simp only [indented,List.cons_append,List.append_assoc]
    rw [dumpsStr_append] at hps ⊢
    simp only [scanOnce,if_neg h1,if_pos,skipSpace_lineBreak,hq,if_neg h2,hps,
      Option.bind_eq_bind,Option.bind_some]
theorem scanItems_indented : ∀ (level : ℕ) (x : Json) (xs : List Json) (k : ℕ) (r : Str),
    plain x = true → plainItems xs = true →
    (indented (level+1) x ++ indentedItems level xs).length ≤ k →
    scanItems k (indented (level+1) x ++ (indentedItems level xs ++ r)) = some (x::xs,r)
  | level, x, xs, 0, _, h, _, hk => by
    have := indented_length_pos (level+1) h
    simp only [List.length_append] at hk
    omega
  | level, x, xs, k+1, r, h, hxs, hk => by
    simp only [List.length_append] at hk
    have hpos : 0 < (indentedItems level xs).length := by cases xs <;> simp [indentedItems]
    refine scanItems_indented_step
      (scanOnce_indented (level+1) x k _ h (by omega) (indentedItems_ends level xs r)) ?_
    intro y ys hy
    subst hy
    simp only [plainItems,Bool.and_eq_true] at hxs
    simp only [indentedItems,List.length_cons,List.length_append] at hk
    exact ⟨hxs.1,
      scanItems_indented level y ys k r hxs.1 hxs.2 (by simp only [List.length_append]; omega)⟩
theorem scanPairs_indented : ∀ (level : ℕ) (key : Str) (v : Json) (ps : List (Str × Json)) (k : ℕ)
    (r : Str), plain v = true → plainPairs ps = true →
    (dumpsStr key ++ chr 58 :: chr 32 ::
      (indented (level+1) v ++ indentedPairs level ps)).length ≤ k →
    scanPairs k (dumpsStr key ++ chr 58 :: chr 32 ::
      (indented (level+1) v ++ (indentedPairs level ps ++ r))) = some ((key,v)::ps,r)
  | level, key, v, ps, 0, _, _, _, hk => by simp at hk
  | level, key, v, ps, k+1, r, h, hps, hk => by
    simp only [List.length_append,List.length_cons] at hk
    refine scanPairs_indented_step h
      (scanOnce_indented (level+1) v k _ h (by omega) (indentedPairs_ends level ps r)) ?_
    intro l w qs hp
    subst hp
    simp only [plainPairs,Bool.and_eq_true] at hps
    simp only [indentedPairs,List.length_cons,List.length_append] at hk
    exact scanPairs_indented level l w qs k r hps.1 hps.2
      (by simp only [List.length_append,List.length_cons]; omega)
end

/-- No float, and no string with a surrogate. -/
def Writable (v : Json) : Prop := plain v = true ∧ ScalarTexts v

lemma writable_obj {ps : List (Str × Json)} :
    Writable (.obj ps) ↔ ∀ p ∈ ps, Scalar p.1 ∧ Writable p.2 := by
  unfold Writable ScalarTexts
  rw [plain,plainPairs_iff,scalar_dumps_obj]
  constructor
  · intro h p hp
    exact ⟨(h.2 p hp).1,h.1 p hp,(h.2 p hp).2⟩
  · intro h
    exact ⟨fun p hp => (h p hp).2.1,fun p hp => ⟨(h p hp).1,(h p hp).2.2⟩⟩

lemma writable_arr {xs : List Json} : Writable (.arr xs) ↔ ∀ x ∈ xs, Writable x := by
  unfold Writable ScalarTexts
  rw [plain,plainItems_iff,scalar_dumps_arr]
  constructor
  · exact fun h x hx => ⟨h.1 x hx,h.2 x hx⟩
  · exact fun h => ⟨fun x hx => (h x hx).1,fun x hx => (h x hx).2⟩

lemma writable_str {s : Str} : Writable (.str s) ↔ Scalar s := by
  simp [Writable,ScalarTexts,plain]

lemma writable_int (n : ℤ) : Writable (.int n) := by
  simp [Writable,ScalarTexts,plain]

lemma writable_get {ps : List (Str × Json)} {k : Str} {v : Json} (h : Writable (.obj ps))
    (hv : (obj ps).get k = some v) : Writable v := by
  rw [get_obj] at hv
  obtain ⟨before,rest,heq,-⟩ := List.lookup_eq_some_iff.mp hv
  have hmem : (k,v) ∈ ps := by
    rw [← List.mem_reverse,heq]
    simp
  exact (writable_obj.mp h _ hmem).2

lemma writable_set {ps : List (Str × Json)} {k : Str} {v : Json} (h : Writable (.obj ps))
    (hk : Scalar k) (hv : Writable v) : Writable (.obj (Dict.set ps k v)) := by
  refine writable_obj.mpr fun p hp => ?_
  obtain rfl | hp := Dict.mem_set hp
  · exact ⟨hk,hv⟩
  · exact writable_obj.mp h p hp

lemma writable_setDefault {ps : List (Str × Json)} {k : Str} {v : Json} (h : Writable (.obj ps))
    (hk : Scalar k) (hv : Writable v) : Writable (.obj (Dict.setDefault ps k v)) := by
  unfold Dict.setDefault
  split_ifs
  · exact h
  · refine writable_obj.mpr fun p hp => ?_
    obtain hp | hp := List.mem_append.mp hp
    · exact writable_obj.mp h p hp
    · rw [List.mem_singleton.mp hp]
      exact ⟨hk,hv⟩

/-- `json.loads(json.dumps(value, indent=2) + "\n")`. -/
theorem loadsStr_dumpsIndent {v : Json} (h : Writable v) :
    loadsStr (dumpsIndent v ++ [chr 10]) = some v := by
  have hend : Ends [chr 10] := by
    intro c t h
    obtain ⟨rfl,-⟩ := List.cons.inj h
    decide
  have hread := scanOnce_indented 0 v ((indented 0 v ++ [chr 10]).length+1) [chr 10] h.1
    (by simp only [List.length_append]; omega) hend
  have hascii : ascii [chr 10] = [chr 10] := by decide
  have htext : dumpsIndent v ++ [chr 10] = ascii (indented 0 v ++ [chr 10]) := by
    rw [ascii_append,hascii,dumpsIndent]
  have hskip : skipSpace (ascii (indented 0 v ++ [chr 10])) = ascii (indented 0 v ++ [chr 10]) := by
    rw [skipSpace_ascii,skipSpace_indented 0 h.1]
  have hlen := length_le_ascii (indented 0 v ++ [chr 10])
  have hall := scanOnce_ascii _ ((ascii (indented 0 v ++ [chr 10])).length+1) _ v _ (by omega)
    hread h.2
  rw [loadsStr,htext,hskip,hall,hascii]
  rfl

end Python.Json
