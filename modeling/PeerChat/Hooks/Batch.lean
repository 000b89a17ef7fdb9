import PeerChat.Hooks.Evidence

/-! How long the context of a hook can get. The loop adds a message while the lengths of the pieces
stay within the limit; the separators of the final join are not counted, and the notices come first
without a check. -/
namespace PeerChat
open Python Wire Interleaving

def separator : Str := str "\n\n"

/-- The sum of the lengths that the loop compares with the limit. -/
def total (pieces : List Str) : ℕ := (pieces.map List.length).sum

@[simp] lemma total_nil : total [] = 0 := rfl

@[simp] lemma total_cons (p : Str) (ps : List Str) : total (p::ps) = p.length + total ps := by
  simp [total]

@[simp] lemma total_append (ps qs : List Str) : total (ps ++ qs) = total ps + total qs := by
  simp [total]

/-- The notices, if there are any, as the first piece. -/
def noticePieces (notice : Str) : List Str := if notice = [] then [] else [notice]

lemma total_noticePieces (notice : Str) : total (noticePieces notice) = notice.length := by
  unfold noticePieces
  split_ifs with h
  · simp [h]
  · simp

lemma length_join (pieces : List Str) :
    (separator.intercalate pieces).length = total pieces + 2*(pieces.length-1) := by
  induction pieces with
  | nil => rfl
  | cons p ps ih =>
    cases ps with
    | nil => simp
    | cons q qs =>
      rw [List.intercalate_cons_cons,List.length_append,List.length_append,ih]
      have hsep : separator.length = 2 := rfl
      simp only [total_cons,List.length_cons,hsep]
      omega

/-! What the loop takes. -/

/-- The texts of the rows that are not held. -/
def readyTexts (m : Machine) (config : Config) (rows : List MessageRow) : List Str :=
  rows.filterMap fun row =>
    if holdReason m config row = none then (hookText m config row).toOption else none

/-- What an allowance pays for. -/
def affordable : Option Budget → List Str → List Str
  | none, _ => []
  | some .unlimited, texts => texts
  | some (.count n), texts => texts.take n.toNat

/-- The first texts that fit beside pieces of a total length. -/
def fitting : ℕ → List Str → List Str
  | _, [] => []
  | used, text::texts =>
    if MAX_CONTEXT < used + text.length then [] else text :: fitting (used + text.length) texts

lemma affordable_nil (b : Option Budget) : affordable b [] = [] := by
  cases b with
  | none => rfl
  | some b => cases b <;> simp [affordable]

lemma affordable_unavailable {b : Option Budget} (h : available b = false) (texts : List Str) :
    affordable b texts = [] := by
  cases b with
  | none => rfl
  | some b =>
    cases b with
    | unlimited => cases h
    | count n =>
      simp only [available,decide_eq_false_iff_not,not_lt] at h
      simp [affordable,Int.toNat_of_nonpos h]

lemma affordable_cons {b : Budget} (h : available (some b) = true) (text : Str) (texts : List Str) :
    affordable (some b) (text::texts) = text :: affordable (some (spend b)) texts := by
  cases b with
  | unlimited => rfl
  | count n =>
    rw [spend_count h]
    simp only [available,decide_eq_true_eq] at h
    obtain ⟨k,rfl⟩ : ∃ k : ℕ, n = k+1 := ⟨(n-1).toNat,by omega⟩
    simp [affordable]

/-- The loop appends the texts that are paid for, as far as they fit. -/
lemma offerRows_pieces {m : Machine} {config : Config} {rows : List MessageRow} {b b' : Batch}
    (h : offerRows m config rows b = .ok b') : b'.pieces = b.pieces ++
      fitting (total b.pieces) (affordable b.remaining (readyTexts m config rows)) := by
  induction rows generalizing b with
  | nil =>
    rw [offerRows] at h
    cases h
    simp [readyTexts,affordable_nil,fitting]
  | cons row rows ih =>
    rw [offerRows] at h
    cases hr : b.remaining with
    | none =>
      rw [hr] at h
      cases h
      simp [affordable,fitting]
    | some remaining =>
      simp only [hr] at h
      by_cases ha : available (some remaining) = true
      · rw [if_neg (by simpa using ha)] at h
        cases hh : holdReason m config row with
        | some reason =>
          rw [hh] at h
          have hrest := ih h
          simp only at hrest
          rw [hrest]
          simp [readyTexts,hh]
        | none =>
          rw [hh] at h
          cases ht : hookText m config row with
          | error exc => simp [ht,bind,Except.bind] at h
          | ok text =>
            have hready : readyTexts m config (row::rows) = text :: readyTexts m config rows := by
              simp [readyTexts,hh,ht,Except.toOption]
            simp only [ht,bind,Except.bind] at h
            rw [hready,affordable_cons ha,fitting]
            change (if MAX_CONTEXT < total b.pieces + text.length then _ else _) = _ at h
            split_ifs at h with hfit
            · cases h
              rw [if_pos hfit,List.append_nil]
            · have hrest := ih h
              rw [hrest,if_neg hfit]
              simp
      · rw [if_pos (by simpa using ha)] at h
        cases h
        rw [affordable_unavailable (by simpa using ha),fitting,List.append_nil]

/-- What fits is the longest initial part that does. -/
lemma fitting_eq_take (texts : List Str) (used : ℕ) : ∃ k ≤ texts.length,
    fitting used texts = texts.take k ∧ (used ≤ MAX_CONTEXT → used + total (texts.take k) ≤ MAX_CONTEXT) ∧
      ∀ j ≤ texts.length, used + total (texts.take j) ≤ MAX_CONTEXT → j ≤ k := by
  induction texts generalizing used with
  | nil => exact ⟨0,le_rfl,rfl,by simp,fun j hj _ => hj⟩
  | cons text texts ih =>
    unfold fitting
    split_ifs with hfit
    · refine ⟨0,Nat.zero_le _,rfl,by simp,fun j _ hsum => ?_⟩
      cases j with
      | zero => exact le_rfl
      | succ j =>
        rw [List.take_succ_cons,total_cons] at hsum
        omega
    · obtain ⟨k,hk,heq,hle,hmax⟩ := ih (used + text.length)
      refine ⟨k+1,by simpa using hk,by rw [List.take_succ_cons,heq],?_,?_⟩
      · intro _
        have := hle (by omega)
        rw [List.take_succ_cons,total_cons]
        omega
      · intro j hj hsum
        cases j with
        | zero => exact Nat.zero_le _
        | succ j =>
          rw [List.take_succ_cons,total_cons] at hsum
          have := hmax j (by simpa using hj) (by omega)
          omega

/-- The texts that the transaction has before it: those of the oldest four received messages that
are not held, as far as the allowance goes. -/
def offeredTexts (m : Machine) (config : Config) (s : Store) : List Str :=
  if hooksOffer s.keys then affordable s.keys.remaining (readyTexts m config (s.pending.take 4)) else []

/-- The notices fit; and every initial part of the texts that fits beside them without separators
fits with separators. -/
def FitsJoined (notice : Str) (texts : List Str) : Prop :=
  notice.length ≤ MAX_CONTEXT ∧ ∀ k ≤ texts.length,
    notice.length + total (texts.take k) ≤ MAX_CONTEXT →
      (separator.intercalate (noticePieces notice ++ texts.take k)).length ≤ MAX_CONTEXT

lemma length_join_take (notice : Str) (texts : List Str) {j k : ℕ} (h : j ≤ k) :
    (separator.intercalate (noticePieces notice ++ texts.take j)).length ≤
      (separator.intercalate (noticePieces notice ++ texts.take k)).length := by
  have hsplit : texts.take k = texts.take j ++ (texts.take k).drop j := by
    have := List.take_append_drop j (texts.take k)
    rw [List.take_take,min_eq_left h] at this
    exact this.symm
  rw [length_join,length_join,hsplit]
  simp only [total_append,List.length_append]
  omega

/-- Exactly then the joined context stays within the limit. -/
lemma length_joined_iff (notice : Str) (texts : List Str) :
    (separator.intercalate (noticePieces notice ++ fitting notice.length texts)).length ≤ MAX_CONTEXT ↔
      FitsJoined notice texts := by
  obtain ⟨k,hk,heq,hle,hmax⟩ := fitting_eq_take texts notice.length
  rw [heq]
  constructor
  · intro h
    have hnotice : notice.length ≤ MAX_CONTEXT := by
      rw [length_join,total_append,total_noticePieces] at h
      omega
    refine ⟨hnotice,fun j hj hsum => ?_⟩
    exact (length_join_take notice texts (hmax j hj hsum)).trans h
  · intro h
    exact h.2 k hk (hle h.1)

lemma length_readyTexts (m : Machine) (config : Config) (rows : List MessageRow) :
    (readyTexts m config rows).length ≤ rows.length := List.length_filterMap_le _ _

lemma length_affordable (b : Option Budget) (texts : List Str) :
    (affordable b texts).length ≤ texts.length := by
  cases b with
  | none => simp [affordable]
  | some b =>
    cases b with
    | unlimited => exact le_rfl
    | count n => simp [affordable]

lemma length_offeredTexts (m : Machine) (config : Config) (s : Store) :
    (offeredTexts m config s).length ≤ 4 := by
  unfold offeredTexts
  split_ifs
  · refine (length_affordable _ _).trans ((length_readyTexts _ _ _).trans ?_)
    exact List.length_take_le 4 s.pending
  · simp

/-- What the transaction returns: the notices and the messages that fit. -/
lemma offeredContext_some {m : Machine} {config : Config} {notice context : Str} {s : Store}
    (h : offeredContext m config notice s = .ok (some context)) : context =
      separator.intercalate (noticePieces notice ++
        fitting notice.length (offeredTexts m config s)) := by
  unfold offeredContext offerBatch at h
  by_cases hmode : hooksOffer s.keys = true
  · rw [if_neg (by simpa using hmode)] at h
    cases hrows : offerRows m config (s.pending.take 4)
        ⟨s,s.keys.remaining,if notice = [] then [] else [notice]⟩ with
    | error exc =>
      rw [hrows] at h
      cases h
    | ok b =>
      rw [hrows] at h
      have hpieces := offerRows_pieces hrows
      change b.pieces = noticePieces notice ++ fitting (total (noticePieces notice))
        (affordable s.keys.remaining (readyTexts m config (s.pending.take 4))) at hpieces
      rw [total_noticePieces] at hpieces
      simp only [Except.map,bind,Except.bind,Except.ok.injEq] at h
      split_ifs at h
      rw [offeredTexts,if_pos hmode,← hpieces]
      exact (Option.some.inj h).symm
  · rw [if_pos (by simpa using hmode)] at h
    simp only [bind,Except.bind,Except.ok.injEq] at h
    split_ifs at h with hnotice
    cases h
    rw [offeredTexts,if_neg hmode,fitting,noticePieces,if_neg hnotice]
    simp

/-! The context of a whole hook. -/

/-- A hook that returns a context has taken notices and offered messages, and this is the context. -/
def ReturnsContext (past : List (Step World Op)) (r : Except Exc (Option Str)) : Prop :=
  ∀ context, r = .ok (some context) → ∃ w₁ w₂ config,
    ⟨.key .takeNotices,w₁⟩ ∈ past ∧
    ⟨.inbox (.offer config (noticesText w₁.machine w₁.store.keys.peerNotices)),w₂⟩ ∈ past ∧
    offeredContext w₂.machine config (noticesText w₁.machine w₁.store.keys.peerNotices) w₂.store =
      .ok (some context)

/-- A program of which only the result matters. -/
def Returns {α : Type} (Q : List (Step World Op) → α → Prop) (p : Code α) : Prop :=
  ∀ past, p.Traced (fun _ _ => True) Q past

lemma Returns.after {α β : Type} {Q : List (Step World Op) → β → Prop} {f : α → Code β}
    (p : Code α) (h : ∀ a, Returns Q (f a)) : Returns Q (p >>= f) := by
  intro past
  exact Prog.Traced.bind (Prog.Traced.extends p past) fun u a _ => h a u

lemma handOver_returns (config : Config) : Returns ReturnsContext (handOver config) := by
  intro past w₁
  refine ⟨trivial,fun w₂ => ⟨trivial,?_⟩⟩
  intro context hcontext
  exact ⟨w₁,w₂,config,by simp,by simp,hcontext⟩

lemma quiet_returns : Returns ReturnsContext (.ret (.ok none) : Code (Except Exc (Option Str))) := by
  intro past context h
  cases h

lemma deliverRouted_returns (config : Config) (payload : HookPayload) :
    Returns ReturnsContext (deliverRouted config payload) := by
  refine Returns.after (renewWindow payload) fun _ => ?_
  refine Returns.after (emit _) fun _ => Returns.after (decideWake payload) fun _ => ?_
  split_ifs
  · exact quiet_returns
  · exact handOver_returns config

lemma deliver_returns (payload : HookPayload) : Returns ReturnsContext (deliver payload) := by
  unfold deliver
  split_ifs
  · exact quiet_returns
  · refine Returns.after (read .machine _) fun registration => ?_
    refine Returns.after (read .config _) fun config => ?_
    split
    · exact quiet_returns
    · rename_i config
      refine Returns.after (read .machine _) fun m => ?_
      split
      · exact Returns.after (emit _) fun _ => deliverRouted_returns config payload
      · refine Returns.after (emit _) fun _ => ?_
        split_ifs
        · exact deliverRouted_returns config payload
        · exact quiet_returns

/-- A context that a hook returns, whatever runs beside it: the notices, then at most four messages,
an initial part of those that the transaction has before it; and it is within the limit exactly if
the notices fit, and the texts that fit beside them do so with separators. -/
theorem context_capped_iff {payload : HookPayload} {w w' : World} {t : List (Entry World Op)}
    {context : Str} (h : Exec (fun _ => True) (deliver payload) w t (.ret (.ok (some context))) w') :
    ∃ w₁ w₂ config notice texts, notice = noticesText w₁.machine w₁.store.keys.peerNotices ∧
      ⟨.key .takeNotices,w₁⟩ ∈ ownSteps t ∧ ⟨.inbox (.offer config notice),w₂⟩ ∈ ownSteps t ∧
      context = separator.intercalate (noticePieces notice ++ texts) ∧
      texts <+: offeredTexts w₂.machine config w₂.store ∧ texts.length ≤ 4 ∧
      (context.length ≤ MAX_CONTEXT ↔ FitsJoined notice (offeredTexts w₂.machine config w₂.store)) := by
  have hdone := Prog.Traced.exec (deliver_returns payload []) h
  rw [List.nil_append] at hdone
  obtain ⟨w₁,w₂,config,htake,hoffer,hcontext⟩ := hdone context rfl
  have hjoin := offeredContext_some hcontext
  obtain ⟨k,-,hfit,-,-⟩ := fitting_eq_take (offeredTexts w₂.machine config w₂.store)
    (noticesText w₁.machine w₁.store.keys.peerNotices).length
  refine ⟨w₁,w₂,config,_,_,rfl,htake,hoffer,hjoin,?_,?_,?_⟩
  · rw [hfit]
    exact List.take_prefix _ _
  · rw [hfit]
    exact (List.length_take_le' _ _).trans (length_offeredTexts _ _ _)
  · rw [hjoin]
    exact length_joined_iff _ _

/-! One hook after notices have been stored. -/

def noticed (notices : List (Str × Notice)) : World :=
  after (World.new hookMachine) [Op.key (.putConfig sampleConfig),Op.key (.putNotices notices)]

/-- No message has been received, so the notices are all there is. -/
lemma noticed_value {notices : List (Str × Notice)} (h : noticesText hookMachine notices ≠ []) :
    (deliver sampleToolUse).value (noticed notices) =
      .ok (some (noticesText hookMachine notices)) := by
  have hroute : routingRejection hookMachine sampleToolUse sampleConfig true = none := by
    decide +kernel
  have hvalid : ¬ (¬ sampleToolUse.event.lifecycle = true ∨ ¬ validId sampleToolUse.sessionId = true) := by
    decide +kernel
  have howner : ownerTurn sampleToolUse = none := rfl
  have hm : (noticed notices).machine = hookMachine := rfl
  have hc : (noticed notices).store.keys.config = some sampleConfig := rfl
  unfold deliver
  rw [if_neg hvalid]
  simp only [read_bind,Prog.value,apply_look,hm,hc,hroute,emit_bind,deliverRouted,renewWindow,howner,
    Prog.ret_bind,decideWake]
  change offeredContext hookMachine sampleConfig (noticesText hookMachine notices) _ = _
  have hmode : ∀ s : Store, s.keys.delivery = none → offeredContext hookMachine sampleConfig
      (noticesText hookMachine notices) s = .ok (some (noticesText hookMachine notices)) := by
    intro s hs
    have hoff : ¬ hooksOffer s.keys = true := by simp [hooksOffer,hs]
    unfold offeredContext offerBatch
    rw [if_pos hoff]
    simp only [bind,Except.bind,if_neg h]
  exact hmode _ rfl

lemma length_dumpsStr_replicate (n : ℕ) (c : CodePoint) :
    (Json.dumpsStr (List.replicate n c)).length = n*(Json.escapeChar c).length+2 := by
  induction n with
  | zero => simp [Json.dumpsStr]
  | succ n ih =>
    simp only [Json.dumpsStr,List.length_cons,List.length_append,List.length_nil,
      List.replicate_succ,List.flatMap_cons] at ih ⊢
    rw [Nat.add_mul]
    omega

/-- A notice whose warning is as long as the decoder lets it be, of characters that are written as
six. -/
def longNotice : Notice := ⟨0,str "offline",none,List.replicate 1000 ⟨1,by decide⟩⟩

/-- What three peers' notices leave. -/
def longNotices : List (Str × Notice) :=
  [str "41:9",str "51:9",str "61:9"].foldl (fun notices peer => Dict.set notices peer longNotice) []

lemma longNotices_eq : longNotices =
    [(str "41:9",longNotice),(str "51:9",longNotice),(str "61:9",longNotice)] :=
  Dict.foldl_set_append [] [(str "41:9",longNotice),(str "51:9",longNotice),(str "61:9",longNotice)]
    (by decide)

lemma length_longNotices : MAX_CONTEXT < (noticesText hookMachine longNotices).length := by
  have hlen : ∀ n : ℕ, (Json.dumpsStr (List.replicate n ⟨1,by decide⟩)).length = n*6+2 := fun n =>
    length_dumpsStr_replicate n _
  have hj : (Json.dumps (longNotice.toJson hookMachine)).length ≥ 6002 := by
    simp only [longNotice,Notice.toJson,Json.dumps,Json.dumpsPairs,List.length_cons,
      List.length_append,hlen]
    omega
  unfold noticesText
  rw [longNotices_eq,if_neg (List.cons_ne_nil _ _)]
  simp only [List.map_cons,List.map_nil,Json.dumps,Json.dumpsPairs,List.length_append,
    List.length_cons]
  have : MAX_CONTEXT = 18000 := rfl
  omega

def offeredNotice : Str × Notice := (str "41:9",⟨0,str "held",none,str "w"⟩)

def offeredRow : MessageRow := ⟨str "41:9",str "m1",str "hi",.prompting,[],.received,[],0⟩

/-- A message has been received, and a notice stored. -/
def offeredWorld : World := after (World.new hookMachine) [Op.key (.putConfig sampleConfig),
  Op.key (.putDelivery .live),Op.key (.putBudget .remaining .unlimited),
  Op.inbox (.accept offeredRow.peer offeredRow.id offeredRow.body offeredRow.senderMode []),
  Op.key (.putNotices [offeredNotice])]

/-- The context is the notice and the message. -/
theorem context_capped_iff_sample : ∃ text ∈ (hookText hookMachine sampleConfig offeredRow).toOption,
    let context := separator.intercalate [noticesText hookMachine [offeredNotice],text]
    ∃ w' t, Exec (fun _ => True) (deliver sampleToolUse) offeredWorld t (.ret (.ok (some context))) w' ∧
    ∃ w₁ w₂ : World, ∃ config texts, let notice := noticesText w₁.machine w₁.store.keys.peerNotices
      context = separator.intercalate (noticePieces notice ++ texts) ∧
      texts <+: offeredTexts w₂.machine config w₂.store ∧ texts.length ≤ 4 ∧
      (context.length ≤ MAX_CONTEXT ↔
        FitsJoined notice (offeredTexts w₂.machine config w₂.store)) := by
  have hvalue : ∃ text ∈ (hookText hookMachine sampleConfig offeredRow).toOption,
      (deliver sampleToolUse).value offeredWorld = .ok (some (separator.intercalate
        [noticesText hookMachine [offeredNotice],text])) := by
    decide +kernel
  obtain ⟨text,htext,hvalue⟩ := hvalue
  obtain ⟨t,ht⟩ := Prog.value_exec (fun _ => True) (deliver sampleToolUse) offeredWorld
  rw [hvalue] at ht
  obtain ⟨w₁,w₂,config,_,texts,rfl,-,-,hcapped⟩ := context_capped_iff ht
  exact ⟨text,htext,_,t,ht,w₁,w₂,config,texts,hcapped⟩

/-- Three notices that the decoder accepts are already too long together. -/
theorem context_over_cap : ¬ ∀ (payload : HookPayload) (w w' : World) (t : List (Entry World Op))
    (context : Str), Exec (fun _ => True) (deliver payload) w t (.ret (.ok (some context))) w' →
    context.length ≤ MAX_CONTEXT := by
  intro h
  have hlong := length_longNotices
  have hne : noticesText hookMachine longNotices ≠ [] := by
    intro hnil
    rw [hnil] at hlong
    contradiction
  obtain ⟨t,ht⟩ := Prog.value_exec (fun _ => True) (deliver sampleToolUse) (noticed longNotices)
  rw [noticed_value hne] at ht
  exact absurd (h _ _ _ _ _ ht) (not_le.mpr hlong)

end PeerChat
