import PeerChat.Inbox.DeliveredOnce
import PeerChat.System.Frame

/-! The balance of the delivery allowance: every message handed over costs one, nothing else costs
anything, and only the writes that open a window raise it. -/
namespace PeerChat
open Python Relational Interleaving

/-- `k` messages were paid for between two values of the allowance. -/
def Balance : Option Budget → Option Budget → ℕ → Prop
  | none, none, k => k = 0
  | some .unlimited, some .unlimited, _ => True
  | some (.count n), some (.count n'), k => n' = n-k ∧ (k = 0 ∨ 0 ≤ n')
  | _, _, _ => False

lemma Balance.refl (b : Option Budget) : Balance b b 0 := by
  rcases b with _ | _ | n <;> simp [Balance]

lemma Balance.trans {a b c : Option Budget} {k l : ℕ} (h : Balance a b k) (h' : Balance b c l) :
    Balance a c (k+l) := by
  rcases a with _ | _ | n <;> rcases b with _ | _ | n' <;> rcases c with _ | _ | n'' <;>
    simp only [Balance] at * <;> omega

/-- Spending an available allowance pays for one message. -/
lemma Balance.spend {b : Budget} (h : available (some b) = true) :
    Balance (some b) (some (spend b)) 1 := by
  cases b with
  | unlimited => trivial
  | count n =>
    rw [spend_count h]
    simp only [available,decide_eq_true_eq] at h
    simp only [Balance]
    omega

lemma Balance.valid {a b : Option Budget} {k : ℕ} (h : Balance a b k)
    (ha : ∀ x, a = some x → x.Valid) : ∀ x, b = some x → x.Valid := by
  rintro x rfl
  rcases a with _ | _ | n <;> rcases x with _ | n' <;> simp only [Balance] at h
  · trivial
  · have := ha _ rfl
    simp only [Budget.Valid] at *
    omega

/-! How many messages one access hands over. -/

/-- The messages that the step moves to `hook_offered` or `forwarding`. -/
def handed (t : Step World Op) : ℕ := t.pre.store.messages.rows.countP fun r => HandsOver r.key t

lemma handed_eq_zero {t : Step World Op} (h : t.label.automatic = false) : handed t = 0 := by
  rw [handed,List.countP_eq_zero]
  intro r _ hr
  have := (of_decide_eq_true hr).step.2
  rw [h] at this
  contradiction

/-- The loop pays for exactly the rows it offers. -/
lemma offerRows_balance {m : Machine} {config : Config} {rows : List MessageRow} {b b' : Batch}
    (h : offerRows m config rows b = .ok b') (hnd : (rows.map MessageRow.key).Nodup)
    (hrec : ∀ r ∈ rows, b.store.status r.key = some .received) :
    Balance b.remaining b'.remaining
      (rows.countP fun r => b'.store.status r.key = some .hookOffered) := by
  induction rows generalizing b with
  | nil =>
    cases h
    exact Balance.refl _
  | cons row rows ih =>
    obtain ⟨-,hnd'⟩ := List.nodup_cons.mp hnd
    rcases offerRows_cons h with rfl | ⟨reason,-,hrun⟩ | ⟨remaining,text,-,hb,ha,-,hrun⟩
    · have hz : (row::rows).countP (fun r => b'.store.status r.key = some .hookOffered) = 0 := by
        rw [List.countP_eq_zero]
        intro r hr
        simp [hrec r hr]
      rw [hz]
      exact Balance.refl _
    · obtain ⟨hrec',hrow⟩ := offerRows_rest hrun rfl hnd hrec
      have hbal := ih hrun hnd' hrec'
      rw [List.countP_cons_of_neg (by simp [hrow])]
      exact hbal
    · obtain ⟨hrec',hrow⟩ := offerRows_rest hrun rfl hnd hrec
      have hbal := ih hrun hnd' hrec'
      rw [List.countP_cons_of_pos (by simp [hrow]),hb,Nat.add_comm]
      exact (Balance.spend ha).trans hbal

lemma offer_balance (config : Config) (notice : Str) (w : World) : Balance w.store.keys.remaining
    (offer w.machine config notice w.store).keys.remaining
    (handed ⟨.inbox (.offer config notice),w⟩) := by
  have hpost : (Step.post (⟨.inbox (.offer config notice),w⟩ : Step World Op)).store =
      offer w.machine config notice w.store := rfl
  have hunchanged : offer w.machine config notice w.store = w.store → Balance w.store.keys.remaining
      (offer w.machine config notice w.store).keys.remaining
      (handed ⟨.inbox (.offer config notice),w⟩) := by
    intro he
    have hz : handed ⟨.inbox (.offer config notice),w⟩ = 0 := by
      rw [handed,List.countP_eq_zero]
      intro r _ hr
      exact (of_decide_eq_true hr).1 (by rw [hpost,he])
    rw [hz,he]
    exact Balance.refl _
  cases hb : offerBatch w.machine config notice w.store with
  | error exc => exact hunchanged (by rw [offer,hb])
  | ok r =>
    cases r with
    | none => exact hunchanged (by rw [offer,hb])
    | some b =>
      obtain ⟨-,pieces,hrows⟩ := offerBatch_some hb
      have hsub : (w.store.pending.take 4).Sublist w.store.pending := List.take_sublist ..
      have hnd := w.store.pending_take_nodup 4
      have hrec := w.store.pending_take_status 4
      have hstore : offer w.machine config notice w.store =
          b.store.setKeys (updateRemaining b.remaining) := by rw [offer,hb]
      have hstatus : ∀ key, (Step.post (⟨.inbox (.offer config notice),w⟩ : Step World Op)).store.status
          key = b.store.status key := by
        intro key
        rw [hpost,hstore,Store.status_setKeys]
      have hbal := offerRows_balance hrows hnd hrec
      have hrem : (offer w.machine config notice w.store).keys.remaining = b.remaining := by
        rw [hstore,Store.setKeys_keys,updateRemaining,offerRows_keys hrows]
        cases hk : w.store.keys.remaining with
        | some x => rfl
        | none =>
          -- without the key nothing is offered and nothing written
          rw [hk] at hbal
          cases hr : b.remaining with
          | none => rfl
          | some y =>
            rw [hr] at hbal
            cases y <;> exact hbal.elim
      have hcount : handed ⟨.inbox (.offer config notice),w⟩ =
          (w.store.pending.take 4).countP fun r => b.store.status r.key = some .hookOffered := by
        rw [handed,Table.countP_eq _ _ (List.Nodup.of_map _ hnd)]
        · refine List.countP_congr fun r hr => ?_
          rw [decide_eq_true_eq,decide_eq_true_eq,HandsOver,hstatus]
          have hpre : w.store.status r.key = some .received := hrec r hr
          rcases offerRows_status hrows hnd hrec r.key with h | ⟨-,h | h⟩
          · simp [h,hpre]
          · simp [h]
          · simp [h,hpre]
        · intro r hr
          exact (Table.find_some (Store.mem_select.mp (hsub.subset hr)).1).1
        · intro r hr hp
          have hne := (of_decide_eq_true hp).1
          rw [hstatus] at hne
          rcases offerRows_status hrows hnd hrec r.key with h | ⟨hk,-⟩
          · exact absurd h hne
          · -- rows with one key are one row
            obtain ⟨x,hx,hxk⟩ := List.mem_map.mp hk
            have hxr : x ∈ w.store.messages.rows :=
              (Table.find_some (Store.mem_select.mp (hsub.subset hx)).1).1
            rwa [← List.inj_on_of_nodup_map w.store.messages.nodup hxr hr hxk]
      rw [hcount,hrem]
      exact hbal

lemma claimForwarding_balance (peer id : Str) (w : World) : Balance w.store.keys.remaining
    (w.store.claimForwarding peer id).keys.remaining
    (handed ⟨.inbox (.claimForwarding peer id),w⟩) := by
  have hpost : (Step.post (⟨.inbox (.claimForwarding peer id),w⟩ : Step World Op)).store =
      w.store.claimForwarding peer id := rfl
  by_cases hf : w.store.forwards peer id = true
  · have hstore : w.store.claimForwarding peer id =
        (w.store.markRows (fun r => r.peer = peer && r.id = id && r.status = .received)
          .forwarding).setKeys fun k => { k with remaining := k.remaining.map spend } := by
      rw [Store.claimForwarding,if_pos hf]
    simp only [Store.forwards,Store.mayForward,Bool.and_eq_true,decide_eq_true_eq] at hf
    obtain ⟨⟨-,ha⟩,hst⟩ := hf
    obtain ⟨row,hrow,hreceived⟩ := Option.map_eq_some_iff.mp hst
    have hkey : row.key = (peer,id) := (Table.find_some hrow).2
    have hstatus : ∀ r ∈ w.store.messages.rows,
        (w.store.claimForwarding peer id).status r.key = some (if r = row then .forwarding else r.status) := by
      intro r hr
      rw [hstore,Store.status_setKeys,Store.status_markRows,Table.find_of_mem hr,Option.map_some]
      by_cases he : r = row
      · subst he
        have hp : r.peer = peer := congrArg Prod.fst hkey
        have hi : r.id = id := congrArg Prod.snd hkey
        simp [hp,hi,hreceived]
      · have hk : ¬ (r.peer = peer ∧ r.id = id) := by
          intro hk
          have : r.key = row.key := by rw [hkey,MessageRow.key,hk.1,hk.2]
          exact he (List.inj_on_of_nodup_map w.store.messages.nodup hr (Table.find_some hrow).1 this)
        have hp : ¬ ((r.peer = peer && r.id = id && decide (r.status = .received)) = true) := by
          simpa using fun h1 h2 _ => hk ⟨h1,h2⟩
        simp only [if_neg hp,if_neg he]
    have hcount : handed ⟨.inbox (.claimForwarding peer id),w⟩ = 1 := by
      rw [handed,Table.countP_eq _ _ (List.nodup_singleton row)]
      · have hr := hstatus row (Table.find_some hrow).1
        rw [if_pos rfl] at hr
        have hpre : w.store.status row.key = some .received := by rw [hkey]; exact hst
        simp [HandsOver,hpost,hr,hpre]
      · intro r hr
        rw [List.mem_singleton.mp hr]
        exact (Table.find_some hrow).1
      · intro r hr hp
        by_contra he
        have hne : ¬ r = row := fun h => he (by simp [h])
        have h := (of_decide_eq_true hp).1
        rw [hpost,hstatus r hr,if_neg hne] at h
        exact h (by rw [Store.status,Table.find_of_mem hr,Option.map_some])
    rw [hcount,hstore,Store.setKeys_keys,Store.markRows_keys]
    obtain ⟨b,hb⟩ : ∃ b, w.store.keys.remaining = some b := by
      cases hb : w.store.keys.remaining with
      | none => simp [hb,available] at ha
      | some b => exact ⟨b,rfl⟩
    rw [hb] at ha
    simp only [hb,Option.map_some]
    exact Balance.spend ha
  · have hstore : w.store.claimForwarding peer id = w.store := by
      rw [Store.claimForwarding,if_neg hf]
    have hz : handed ⟨.inbox (.claimForwarding peer id),w⟩ = 0 := by
      rw [handed,List.countP_eq_zero]
      intro r _ hr
      exact (of_decide_eq_true hr).1 (by rw [hpost,hstore])
    rw [hz,hstore]
    exact Balance.refl _

/-! The writes that open a window. -/

/-- Does the access write the allowance anew? -/
def resets (w : World) : Op → Bool
  | .key (.renew turn) => (renews turn w.store.keys).isSome
  | .key (.putBudget .remaining _) => true
  | .key (.configureDelivery _ (some _)) => true
  | _ => false

/-- An access that opens no window leaves the allowance, up to what it hands over. -/
theorem balance_step {op : Op} {w : World} (h : resets w op = false) :
    Balance w.store.keys.remaining (apply op w).store.keys.remaining (handed ⟨op,w⟩) := by
  have hsame : op.automatic = false → (apply op w).store.keys.remaining = w.store.keys.remaining →
      Balance w.store.keys.remaining (apply op w).store.keys.remaining (handed ⟨op,w⟩) := by
    intro ha he
    rw [handed_eq_zero (t := ⟨op,w⟩) ha,he]
    exact Balance.refl _
  by_cases hwrites : MetaKey.remaining ∈ op.writes
  · cases op with
    | inbox op =>
      cases op with
      | offer config notice => exact offer_balance config notice w
      | claimForwarding peer id => exact claimForwarding_balance peer id w
      | _ => simp [Op.writes] at hwrites
    | key op =>
      cases op with
      | renew turn =>
        simp only [resets,Option.isSome_eq_false_iff,Option.isNone_iff_eq_none] at h
        refine hsame rfl ?_
        simp only [apply_key_keys,KeyOp.apply,renew,h]
      | putBudget key value =>
        cases key with
        | remaining => cases h
        | wakeRemaining => exact hsame rfl rfl
        | budgetLimit => exact hsame rfl rfl
      | configureDelivery mode budget =>
        cases budget with
        | none => exact hsame rfl rfl
        | some b => cases h
      | _ => simp [Op.writes,KeyOp.writes,wakeKeys] at hwrites
    | _ => simp [Op.writes] at hwrites
  · have hauto : op.automatic = false := by
      cases op with
      | inbox op => cases op <;> first | rfl | exact absurd (List.mem_singleton.mpr rfl) hwrites
      | _ => rfl
    exact hsame hauto (apply_frame op w hwrites)

/-- What a window opens with is valid. -/
lemma resets_valid {op : Op} {w : World} (h : resets w op = true) :
    ∃ b, (apply op w).store.keys.remaining = some b ∧ b.Valid := by
  unfold resets at h
  split at h
  · rename_i turn
    obtain ⟨limit,hl⟩ := Option.isSome_iff_exists.mp h
    refine ⟨.count limit,by rw [apply_key_keys]; simp only [KeyOp.apply,renew,hl],?_⟩
    simp only [renews] at hl
    split at hl
    · split_ifs at hl with hr
      cases hl
      exact ⟨hr.1,hr.2.1⟩
    · contradiction
  · exact ⟨_,rfl,parseBudget_valid _⟩
  · exact ⟨_,rfl,parseBudget_valid _⟩
  · contradiction

/-- The allowance is absent, unlimited, or a number from 0 to 50. -/
def AllowanceValid (w : World) : Prop := ∀ b, w.store.keys.remaining = some b → b.Valid

theorem allowanceValid_step (op : Op) (w : World) (h : AllowanceValid w) :
    AllowanceValid (apply op w) := by
  cases hr : resets w op with
  | false => exact (balance_step hr).valid h
  | true =>
    obtain ⟨b,hb,hv⟩ := resets_valid hr
    intro x hx
    rw [hb] at hx
    cases hx
    exact hv

/-! Runs. -/

def handedBy (trace : List (Step World Op)) : ℕ := (trace.map handed).sum

lemma balance_run (ls : List Op) {w : World}
    (h : ∀ t ∈ stepsOf w ls, resets t.pre t.label = false) :
    Balance w.store.keys.remaining (after w ls).store.keys.remaining (handedBy (stepsOf w ls)) := by
  induction ls generalizing w with
  | nil => exact Balance.refl _
  | cons l ls ih =>
    have hl := balance_step (h ⟨l,w⟩ (by simp [stepsOf]))
    have hls := ih (w := apply l w) fun t ht => h t (by simp [stepsOf,ht])
    simpa [handedBy,stepsOf] using hl.trans hls

/-- In every run from a new database: the allowance is absent, unlimited or a number from 0 to
50; and over every stretch without a write that opens a window it falls by exactly the number of
messages handed over, which it covers, or stays unlimited, or stays absent and nothing is handed
over. -/
theorem allowance_accounting (U : Interp) (honest : Bool) (m : Machine) (es fs : Schedule) :
    let B := bridge U honest
    let c := B.final (.idle (.new m)) es
    let d := B.final c fs
    AllowanceValid c.state ∧
    ((∀ t ∈ B.trace c fs, resets t.pre t.label = false) →
      (c.state.store.keys.remaining = none →
        d.state.store.keys.remaining = none ∧ handedBy (B.trace c fs) = 0) ∧
      (c.state.store.keys.remaining = some .unlimited →
        d.state.store.keys.remaining = some .unlimited) ∧
      ∀ n, c.state.store.keys.remaining = some (.count n) →
        d.state.store.keys.remaining = some (.count (n-handedBy (B.trace c fs))) ∧
        (handedBy (B.trace c fs) : ℤ) ≤ n) := by
  intro B c d
  obtain ⟨ls,-,hc⟩ := B.exists_labels (.idle (.new m)) es
  have hvalid : AllowanceValid c.state := by
    change AllowanceValid (B.final _ es).state
    rw [hc]
    exact after_induction (fun b hb => by cases hb) fun l _ w hw => allowanceValid_step l w hw
  refine ⟨hvalid,fun hfree => ?_⟩
  obtain ⟨ms,htrace,hd⟩ := B.exists_labels c fs
  have hbal := balance_run ms (w := c.state) (by rw [← htrace]; exact hfree)
  rw [← htrace,← hd] at hbal
  change Balance _ d.state.store.keys.remaining _ at hbal
  refine ⟨fun h => ?_,fun h => ?_,fun n h => ?_⟩ <;> rw [h] at hbal
  · cases hr : d.state.store.keys.remaining with
    | none =>
      rw [hr] at hbal
      exact ⟨rfl,hbal⟩
    | some b =>
      rw [hr] at hbal
      exact hbal.elim
  · cases hr : d.state.store.keys.remaining with
    | none =>
      rw [hr] at hbal
      exact hbal.elim
    | some b =>
      rw [hr] at hbal
      cases b with
      | unlimited => rfl
      | count n => exact hbal.elim
  · have hn := hvalid _ h
    cases hr : d.state.store.keys.remaining with
    | none =>
      rw [hr] at hbal
      exact hbal.elim
    | some b =>
      rw [hr] at hbal
      cases b with
      | unlimited => exact hbal.elim
      | count n' =>
        simp only [Balance] at hbal
        simp only [Budget.Valid] at hn
        exact ⟨by rw [hbal.1],by omega⟩

end PeerChat
