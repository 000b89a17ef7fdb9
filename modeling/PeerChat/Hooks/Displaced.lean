import PeerChat.Hooks.Accepted

/-! Messages that are not eligible, and the eligible ones behind them. A hook looks at the oldest
four received messages before it knows which of them are eligible, so ineligible ones take places
from eligible ones. -/
namespace PeerChat
open Python Relational Wire Interleaving

/-! How many texts get through. -/

/-- The allowance pays for this many messages. -/
def pays : Option Budget → ℕ → Bool
  | some .unlimited, _ => true
  | some (.count n), k => (k : ℤ) ≤ n
  | none, _ => false

lemma pays_available {b : Option Budget} {k : ℕ} (h : pays b (k+1) = true) : available b = true := by
  cases b with
  | none => cases h
  | some b =>
    cases b with
    | unlimited => rfl
    | count n =>
      simp only [pays,decide_eq_true_eq,available] at h ⊢
      omega

lemma pays_one (b : Option Budget) : pays b 1 = available b := by
  cases b with
  | none => rfl
  | some b =>
    cases b with
    | unlimited => rfl
    | count n =>
      simp only [pays,available,decide_eq_decide]
      omega

lemma pays_spend {b : Budget} (h : available (some b) = true) (k : ℕ) :
    pays (some (spend b)) k = pays (some b) (k+1) := by
  cases b with
  | unlimited => rfl
  | count n =>
    rw [spend_count h]
    simp only [pays,decide_eq_decide]
    omega

/-- A text gets through exactly if the allowance pays for it and those before it, and they all fit
together. -/
lemma lt_length_fitting_iff (texts : List Str) (used j : ℕ) (b : Option Budget) :
    j < (fitting used (affordable b texts)).length ↔ j < texts.length ∧ pays b (j+1) = true ∧
      used + total (texts.take (j+1)) ≤ MAX_CONTEXT := by
  induction texts generalizing used j b with
  | nil => simp [affordable_nil,fitting]
  | cons text texts ih =>
    by_cases ha : available b = true
    · obtain ⟨remaining,rfl⟩ : ∃ remaining, b = some remaining := by
        cases b with
        | none => cases ha
        | some remaining => exact ⟨remaining,rfl⟩
      rw [affordable_cons ha,fitting]
      split_ifs with hfit
      · constructor
        · intro h
          simp at h
        · rintro ⟨-,-,hsum⟩
          rw [List.take_succ_cons,total_cons] at hsum
          omega
      · cases j with
        | zero =>
          rw [pays_one]
          simp only [List.length_cons,Nat.zero_lt_succ,ha,List.take_succ_cons,List.take_zero,
            total_cons,total_nil,true_and,true_iff]
          omega
        | succ j =>
          rw [List.length_cons,Nat.succ_lt_succ_iff,ih,pays_spend ha,List.take_succ_cons,total_cons,
            List.length_cons,Nat.succ_lt_succ_iff,Nat.add_assoc used]
    · rw [affordable_unavailable (by simpa using ha)]
      constructor
      · intro h
        simp [fitting] at h
      · rintro ⟨-,hpays,-⟩
        exact absurd (pays_available hpays) ha

/-- More texts after the first ones: as many get through as before, unless all did and the next one
does too. -/
lemma length_fitting_append (first more : List Str) (used : ℕ) (b : Option Budget) :
    (fitting used (affordable b (first ++ more))).length =
        (fitting used (affordable b first)).length ↔
      ¬ first.length < (fitting used (affordable b (first ++ more))).length := by
  have hle : (fitting used (affordable b first)).length ≤ first.length := by
    by_contra h
    obtain ⟨hlt,-,-⟩ := (lt_length_fitting_iff _ _ _ _).mp (not_le.mp h)
    exact absurd hlt (lt_irrefl _)
  have hsame : ∀ j < first.length, j < (fitting used (affordable b (first ++ more))).length ↔
      j < (fitting used (affordable b first)).length := by
    intro j hj
    have htake : (first ++ more).take (j+1) = first.take (j+1) := by
      rw [List.take_append_of_le_length hj]
    rw [lt_length_fitting_iff,lt_length_fitting_iff,htake,List.length_append]
    exact and_congr_left fun _ => ⟨fun _ => hj,fun _ => by omega⟩
  constructor
  · intro h hlt
    omega
  · intro h
    by_contra hne
    rcases Nat.lt_or_gt_of_ne hne with hlt | hlt
    · have := (hsame _ (by omega)).mpr hlt
      omega
    · have := (hsame _ (by omega)).mp hlt
      omega

/-! The inbox without its ineligible messages. -/

/-- The received messages that are not eligible are removed. -/
def Store.withoutIneligible (m : Machine) (config : Config) (s : Store) : Store :=
  { s with messages :=
      s.messages.delete fun r => r.status = .received && (holdReason m config r).isSome }

def World.withoutIneligible (config : Config) (w : World) : World :=
  { w with store := w.store.withoutIneligible w.machine config }

lemma withoutIneligible_pending (m : Machine) (config : Config) (s : Store) :
    (s.withoutIneligible m config).pending = eligibleRows m config s.pending := by
  rw [Store.pending,Store.select,Store.withoutIneligible,Table.select_delete]
  refine List.filter_congr fun r hr => ?_
  have hrec : r.status = .received := by simpa using (Store.mem_select.mp hr).2
  cases hh : holdReason m config r <;> simp [hrec]

/-- Writes of meta keys depend on the meta keys and the machine. -/
lemma after_keys_congr {ops : List Op} (hops : ∀ op ∈ ops, ∃ k, op = .key k) {w w' : World}
    (hm : w'.machine = w.machine) (hk : w'.store.keys = w.store.keys) :
    (after w' ops).store.keys = (after w ops).store.keys := by
  induction ops generalizing w w' with
  | nil => exact hk
  | cons op ops ih =>
    obtain ⟨k,rfl⟩ := hops op (List.mem_cons_self ..)
    refine ih (fun op hop => hops op (List.mem_cons_of_mem _ hop)) hm ?_
    rw [apply_key_keys,apply_key_keys,hm,hk]

lemma beforeOffer_withoutIneligible (payload : HookPayload) (config : Config) (w : World) :
    (beforeOffer payload config (w.withoutIneligible config)).store.keys =
      (beforeOffer payload config w).store.keys := by
  refine after_keys_congr ?_ rfl rfl
  intro op hop
  rcases List.mem_append.mp hop with hop | hop
  · exact hookWrites_keyOps _ _ _ op hop
  · exact ⟨_,List.mem_singleton.mp hop⟩

/-- The messages that a hook offers. -/
def offeredBy (payload : HookPayload) (w : World) : List MessageRow :=
  offeredBetween w.store ((deliver payload).run w).store

lemma offeredBy_eq {payload : HookPayload} {config : Config} {w : World}
    (h : Accepted w.machine payload config) (hconfig : w.store.keys.config = some config) :
    offeredBy payload w = (eligibleRows w.machine config (w.store.pending.take 4)).take
      (fitting w.noticeText.length
        (offeredTexts w.machine config (beforeOffer payload config w).store)).length := by
  have hoffer := offered_eq w.machine config w.noticeText (beforeOffer payload config w).store
  rw [beforeOffer_pending] at hoffer
  rw [← hoffer,offeredBy,(deliver_alone h hconfig).1,offeredBetween,offeredBetween,
    beforeOffer_pending]
  change _ = w.store.pending.filter fun r => decide
    ((offer w.machine config w.noticeText (beforeOffer payload config w).store).status r.key = _)
  conv_rhs => rw [← beforeOffer_machine payload config w]
  rfl

/-- Without notices, a hook with an allowance offers the oldest message if it is eligible. -/
lemma offeredBy_ne_nil {payload : HookPayload} {config : Config} {w : World}
    (h : Accepted w.machine payload config) (hconfig : w.store.keys.config = some config)
    (hnotes : w.noticeText = [])
    (hmode : hooksOffer (beforeOffer payload config w).store.keys = true)
    (havail : available (beforeOffer payload config w).store.keys.remaining = true)
    (hids : ∀ r ∈ w.store.pending, validId r.id = true)
    (helig : (w.store.pending.head?.any fun r => holdReason w.machine config r = none) = true) :
    offeredBy payload w ≠ [] := by
  obtain ⟨row,hhead,hnone⟩ := (Option.any_eq_true ..).mp helig
  obtain ⟨rows,hpending⟩ : ∃ rows, w.store.pending = row::rows := by
    cases hp : w.store.pending with
    | nil => rw [hp] at hhead; cases hhead
    | cons x xs => rw [hp] at hhead; exact ⟨xs,by rw [Option.some.inj hhead]⟩
  have hmem : row ∈ w.store.pending := by rw [hpending]; simp
  have hbefore := (beforeOffer_pending payload config w).trans hpending
  have hdealt := offer_oldest w.machine config hmode havail hbefore (hids row hmem)
  have hoffered := offer_of_eligible (by rw [hbefore]; simp)
    (holdReason_none_iff.mp (of_decide_eq_true hnone)) hdealt
  have hin : row ∈ offeredBy payload w := by
    have hstore : ((deliver payload).run w).store =
        offer w.machine config [] (beforeOffer payload config w).store := by
      rw [(deliver_alone h hconfig).1,hnotes,← beforeOffer_machine payload config w]
      rfl
    refine List.mem_filter.mpr ⟨hmem,decide_eq_true ?_⟩
    rw [hstore]
    exact hoffered
  exact List.ne_nil_of_mem hin

/-! When the four places are not enough. -/

/-- Fewer than four of the oldest four received messages are eligible, another eligible one comes
after them, and the mode, the allowance and the size of a context would let it through. -/
def CutOff (m : Machine) (config : Config) (notice : Str) (s : Store) : Prop :=
  hooksOffer s.keys = true ∧ ∃ next later,
    eligibleRows m config (s.pending.drop 4) = next::later ∧
    (eligibleRows m config (s.pending.take 4)).length < 4 ∧
    pays s.keys.remaining ((eligibleRows m config (s.pending.take 4)).length+1) = true ∧
    notice.length + total (readyTexts m config
      (eligibleRows m config (s.pending.take 4) ++ [next])) ≤ MAX_CONTEXT

section
variable {m : Machine} {config : Config}

lemma eligibleRows_idem (rows : List MessageRow) :
    eligibleRows m config (eligibleRows m config rows) = eligibleRows m config rows := by
  simp [eligibleRows]

lemma eligibleRows_append (rows rows' : List MessageRow) :
    eligibleRows m config (rows ++ rows') = eligibleRows m config rows ++ eligibleRows m config rows' :=
  List.filter_append ..

/-- The oldest four eligible rows: those among the oldest four, and as many behind them as there are
places left. -/
lemma take_eligibleRows (rows : List MessageRow) : (eligibleRows m config rows).take 4 =
    eligibleRows m config (rows.take 4) ++ (eligibleRows m config (rows.drop 4)).take
      (4-(eligibleRows m config (rows.take 4)).length) := by
  have hfour : (eligibleRows m config (rows.take 4)).length ≤ 4 :=
    (List.length_filter_le _ _).trans (List.length_take_le _ _)
  conv_lhs => rw [← List.take_append_drop 4 rows]
  rw [eligibleRows_append,List.take_append,List.take_of_length_le hfour]

lemma eligibleRows_take (rows : List MessageRow) (k : ℕ) :
    eligibleRows m config ((eligibleRows m config rows).take k) =
      (eligibleRows m config rows).take k := by
  refine List.filter_eq_self.mpr fun r hr => ?_
  exact (List.mem_filter.mp ((List.take_sublist ..).subset hr)).2

/-- The next eligible message gets through behind the first ones. -/
lemma cutOff_iff {first rest : List MessageRow} (hfirst : eligibleRows m config first = first)
    (hrest : eligibleRows m config rest = rest) (used : ℕ) (b : Option Budget) :
    first.length < (fitting used (affordable b (readyTexts m config
        (first ++ rest.take (4-first.length))))).length ↔
      ∃ next later, rest = next::later ∧ first.length < 4 ∧ pays b (first.length+1) = true ∧
        used + total (readyTexts m config (first ++ [next])) ≤ MAX_CONTEXT := by
  have hlen : (readyTexts m config first).length = first.length := by
    rw [(readyTexts_eligible first).2,hfirst]
  have hnone : first.length < (fitting used (affordable b (readyTexts m config first))).length →
      False := by
    intro h
    obtain ⟨hlt,-,-⟩ := (lt_length_fitting_iff _ _ _ _).mp h
    rw [hlen] at hlt
    exact absurd hlt (lt_irrefl _)
  cases rest with
  | nil =>
    rw [List.take_nil,List.append_nil]
    exact ⟨fun h => (hnone h).elim,by rintro ⟨next,later,⟨⟩,-⟩⟩
  | cons next later =>
    by_cases hfour : first.length < 4
    · obtain ⟨k,hk⟩ : ∃ k, 4-first.length = k+1 := ⟨3-first.length,by omega⟩
      have hone : (readyTexts m config [next]).length = 1 := by
        have hnext : eligibleRows m config [next] = [next] := by
          have hmem : next ∈ eligibleRows m config (next::later) := by rw [hrest]; simp
          unfold eligibleRows at hmem ⊢
          exact List.filter_cons_of_pos (List.mem_filter.mp hmem).2
        rw [(readyTexts_eligible [next]).2,hnext,List.length_singleton]
      have htexts : readyTexts m config (first ++ (next::later).take (4-first.length)) =
          readyTexts m config (first ++ [next]) ++ readyTexts m config (later.take k) := by
        rw [hk,List.take_succ_cons,← readyTexts_append]
        simp
      have hnext : (readyTexts m config (first ++ [next])).length = first.length+1 := by
        rw [readyTexts_append,List.length_append,hlen,hone]
      rw [htexts,lt_length_fitting_iff,← hnext,List.take_left' rfl,List.length_append,hnext]
      constructor
      · rintro ⟨-,hpays,hsum⟩
        exact ⟨next,later,rfl,hfour,hpays,hsum⟩
      · rintro ⟨_,_,⟨⟩,-,hpays,hsum⟩
        exact ⟨by omega,hpays,hsum⟩
    · have hk : 4-first.length = 0 := by omega
      rw [hk,List.take_zero,List.append_nil]
      exact ⟨fun h => (hnone h).elim,by rintro ⟨-,-,-,h,-⟩; exact absurd h hfour⟩

/-- The messages offered out of `first` alone, and with more behind them. -/
lemma take_eq_iff {first rest : List MessageRow} (hfirst : eligibleRows m config first = first)
    (hrest : eligibleRows m config rest = rest) (used : ℕ) (b : Option Budget) :
    first.take (fitting used (affordable b (readyTexts m config first))).length =
        (first ++ rest.take (4-first.length)).take (fitting used (affordable b (readyTexts m config
          (first ++ rest.take (4-first.length))))).length ↔
      ¬ ∃ next later, rest = next::later ∧ first.length < 4 ∧ pays b (first.length+1) = true ∧
        used + total (readyTexts m config (first ++ [next])) ≤ MAX_CONTEXT := by
  have hbound : ∀ rows : List MessageRow,
      (fitting used (affordable b (readyTexts m config rows))).length ≤ rows.length := by
    intro rows
    by_contra h
    obtain ⟨hlt,-,-⟩ := (lt_length_fitting_iff _ _ _ _).mp (not_le.mp h)
    have := length_readyTexts m config rows
    omega
  have hlen : (readyTexts m config first).length = first.length := by
    rw [(readyTexts_eligible first).2,hfirst]
  have happend := length_fitting_append (readyTexts m config first)
    (readyTexts m config (rest.take (4-first.length))) used b
  rw [← readyTexts_append,hlen] at happend
  rw [← cutOff_iff hfirst hrest,← happend]
  constructor
  · intro h
    have hcount := congrArg List.length h
    rw [List.length_take_of_le (hbound _),List.length_take_of_le (hbound _)] at hcount
    exact hcount.symm
  · intro h
    rw [h,List.take_append_of_le_length (hbound first)]

end

/-- A hook offers the same messages as on the inbox without the ineligible ones, exactly if the row
limit cuts no eligible message off. -/
theorem ineligible_displace_iff {payload : HookPayload} {config : Config} {w : World}
    (h : Accepted w.machine payload config) (hconfig : w.store.keys.config = some config) :
    offeredBy payload w = offeredBy payload (w.withoutIneligible config) ↔
      ¬ CutOff w.machine config w.noticeText (beforeOffer payload config w).store := by
  have hpending : (w.withoutIneligible config).store.pending =
      eligibleRows w.machine config w.store.pending := withoutIneligible_pending ..
  have hw := offeredBy_eq h hconfig
  have hw' := offeredBy_eq (w := w.withoutIneligible config) h hconfig
  change offeredBy payload (w.withoutIneligible config) = (eligibleRows w.machine config
    ((w.withoutIneligible config).store.pending.take 4)).take (fitting w.noticeText.length
      (offeredTexts w.machine config
        (beforeOffer payload config (w.withoutIneligible config)).store)).length at hw'
  rw [hpending,eligibleRows_take,take_eligibleRows] at hw'
  unfold offeredTexts at hw hw'
  rw [beforeOffer_withoutIneligible,beforeOffer_pending,hpending,take_eligibleRows] at hw'
  rw [beforeOffer_pending,← (readyTexts_eligible (w.store.pending.take 4)).1] at hw
  rw [hw,hw',CutOff,beforeOffer_pending]
  by_cases hmode : hooksOffer (beforeOffer payload config w).store.keys = true
  · simp only [hmode,if_true,true_and]
    exact take_eq_iff (eligibleRows_idem _) (eligibleRows_idem _) ..
  · simp [hmode,fitting]

/-! Four messages that have made eight hops, and one that has made none. -/

def idOf (d : ℕ) : Str :=
  Uuid.text ⟨List.replicate 32 ⟨d%16,Nat.mod_lt _ (by decide)⟩,List.length_replicate⟩

def sampleReceived (d : ℕ) (hops : List Str) : Op :=
  .inbox (.accept (str "41:9") (idOf d) (str "hi") .prompting hops)

def crowded : World := after (World.new hookMachine) [
  .key (.putConfig sampleConfig),.key (.putDelivery .live),.key (.putBudget .remaining .unlimited),
  sampleReceived 1 (List.replicate 8 sampleHop),sampleReceived 2 (List.replicate 8 sampleHop),
  sampleReceived 3 (List.replicate 8 sampleHop),sampleReceived 4 (List.replicate 8 sampleHop),
  sampleReceived 5 []]

lemma crowded_accepted : Accepted crowded.machine sampleToolUse sampleConfig where
  active := rfl
  sessionId := by decide +kernel
  routed := by decide +kernel

lemma crowded_config : crowded.store.keys.config = some sampleConfig := by decide +kernel

theorem ineligible_displace_iff_crowded :
    offeredBy sampleToolUse crowded =
        offeredBy sampleToolUse (crowded.withoutIneligible sampleConfig) ↔
      ¬ CutOff crowded.machine sampleConfig crowded.noticeText
        (beforeOffer sampleToolUse sampleConfig crowded).store :=
  ineligible_displace_iff crowded_accepted crowded_config

/-- The hook offers nothing there, and the fifth message where the four are removed. -/
theorem crowded_displaced : ¬ ∀ (payload : HookPayload) (config : Config) (w : World),
    Accepted w.machine payload config → w.store.keys.config = some config →
    offeredBy payload w = offeredBy payload (w.withoutIneligible config) := by
  intro h
  have hsame := h sampleToolUse sampleConfig crowded crowded_accepted crowded_config
  have hnone : (offeredBy sampleToolUse crowded).length = 0 := by decide +kernel
  have hsome := offeredBy_ne_nil (w := crowded.withoutIneligible sampleConfig) crowded_accepted
    crowded_config (by decide +kernel) (by decide +kernel) (by decide +kernel) (by decide +kernel)
    (by decide +kernel)
  rw [← hsame] at hsome
  exact hsome (List.length_eq_zero_iff.mp hnone)

end PeerChat
