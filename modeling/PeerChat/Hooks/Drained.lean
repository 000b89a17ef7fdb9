import PeerChat.Budget.Coherence
import PeerChat.Hooks.Displaced

/-! Hooks that come one after the other while nothing else happens. Each of them takes the stored
notices or deals with the oldest received message, so they empty the inbox. -/
namespace PeerChat
open Python Relational Wire Interleaving

/-! Counting the received messages. -/

lemma Store.mem_pending_keys {s : Store} {key : Str × Str} :
    key ∈ s.pending.map MessageRow.key ↔ s.status key = some .received := by
  constructor
  · intro h
    obtain ⟨r,hr,rfl⟩ := List.mem_map.mp h
    exact status_of_mem_pending hr
  · intro h
    obtain ⟨r,hr,hst⟩ := Option.map_eq_some_iff.mp h
    have hkey : r.key = key := (Table.find_some hr).2
    have hmem : r ∈ s.pending := mem_select.mpr ⟨by rw [hkey]; exact hr,by simp [hst]⟩
    rw [← hkey]
    exact List.mem_map_of_mem hmem

/-- Where no message becomes received, those that cease to be are missing from the count. -/
lemma length_pending_add_le (s s' : Store) (dealt : List (Str × Str))
    (hback : ∀ key, s'.status key = some .received → s.status key = some .received)
    (hnd : dealt.Nodup) (hdealt : ∀ key ∈ dealt, s.status key = some .received ∧
      s'.status key ≠ some .received) : s'.pending.length + dealt.length ≤ s.pending.length := by
  have hdis : (s'.pending.map MessageRow.key ++ dealt).Nodup := by
    refine s'.pending_nodup.append hnd ?_
    intro key hkey hk
    exact (hdealt key hk).2 (Store.mem_pending_keys.mp hkey)
  have hsub : s'.pending.map MessageRow.key ++ dealt ⊆ s.pending.map MessageRow.key := by
    intro key hkey
    rw [Store.mem_pending_keys]
    rcases List.mem_append.mp hkey with hk | hk
    · exact hback key (Store.mem_pending_keys.mp hk)
    · exact (hdealt key hk).1
  have hlen := (hdis.subperm hsub).length_le
  simpa using hlen

lemma offer_back {m : Machine} {config : Config} {notice : Str} {s : Store} {key : Str × Str}
    (h : (offer m config notice s).status key = some .received) : s.status key = some .received := by
  rcases offer_status m config notice s key with he | ⟨hpre,-⟩
  · rw [← he,h]
  · exact hpre

/-- The allowance pays for what is left, after an offer as before it. -/
lemma offer_pays (config : Config) (notice : Str) {w : World}
    (h : pays w.store.keys.remaining w.store.pending.length = true) :
    pays (offer w.machine config notice w.store).keys.remaining
      (offer w.machine config notice w.store).pending.length = true := by
  have hbal := offer_balance config notice w
  have hcount : (offer w.machine config notice w.store).pending.length +
      handed ⟨.inbox (.offer config notice),w⟩ ≤ w.store.pending.length := by
    have hnd : ((w.store.messages.rows.filter fun r =>
        HandsOver r.key ⟨.inbox (.offer config notice),w⟩).map MessageRow.key).Nodup :=
      w.store.messages.nodup.sublist (List.filter_sublist.map _)
    have hshrink := length_pending_add_le w.store (offer w.machine config notice w.store) _
      (fun _ => offer_back) hnd ?_
    · rw [List.length_map,← List.countP_eq_length_filter] at hshrink
      exact hshrink
    · intro key hkey
      obtain ⟨r,hr,rfl⟩ := List.mem_map.mp hkey
      have hands := of_decide_eq_true (List.mem_filter.mp hr).2
      have hchanged : (offer w.machine config notice w.store).status r.key ≠
        w.store.status r.key := hands.1
      rcases offer_status w.machine config notice w.store r.key with he | ⟨hpre,hheld | hoffered⟩
      · exact absurd he hchanged
      · exact ⟨hpre,by rw [hheld]; decide⟩
      · exact ⟨hpre,by rw [hoffered]; decide⟩
  generalize handed ⟨.inbox (.offer config notice),w⟩ = k at hbal hcount
  generalize (offer w.machine config notice w.store).keys.remaining = after at hbal ⊢
  cases hb : w.store.keys.remaining with
  | none =>
    rw [hb] at h
    cases h
  | some b =>
    rw [hb] at h hbal
    cases b with
    | unlimited =>
      rcases after with _ | _ | n
      · exact hbal.elim
      · rfl
      · exact hbal.elim
    | count n =>
      rcases after with _ | _ | n'
      · exact hbal.elim
      · exact hbal.elim
      · simp only [pays,decide_eq_true_eq,Balance] at h hbal ⊢
        omega

/-! Hooks one after the other. -/

/-- A hook, and the machine as it finds it. -/
structure Visit where
  machine : Machine
  payload : HookPayload

/-- The world after a hook that has run alone. -/
def visit (w : World) (v : Visit) : World := (deliver v.payload).run { w with machine := v.machine }

def visits (w : World) (vs : List Visit) : World := vs.foldl visit w

@[simp] lemma visits_nil (w : World) : visits w [] = w := rfl

@[simp] lemma visits_cons (w : World) (v : Visit) (vs : List Visit) :
    visits w (v::vs) = visits (visit w v) vs := rfl

lemma visits_append (w : World) (us vs : List Visit) :
    visits w (us ++ vs) = visits (visits w us) vs := List.foldl_append

/-- The window that a hook of the owner's prompt opens. -/
def renewal (payload : HookPayload) (k : Meta) : Option ℤ :=
  (ownerTurn payload).bind fun turn => renews turn k

lemma renew_remaining (turn : Str) (k : Meta) : (renew turn k).remaining =
    match renews turn k with
    | some limit => some (.count limit)
    | none => k.remaining := by
  unfold renew
  cases renews turn k <;> rfl

lemma beforeOffer_remaining (payload : HookPayload) (config : Config) (w : World) :
    (beforeOffer payload config w).store.keys.remaining =
      match renewal payload w.store.keys with
      | some limit => some (.count limit)
      | none => w.store.keys.remaining := by
  -- nothing after the renewal writes the allowance
  have hlast : ∀ u : World, (after u [Op.key (.putPhase .active),Op.key (.activeHook payload),
      Op.key .takeNotices]).store.keys.remaining = u.store.keys.remaining := fun u =>
    after_same .remaining (by simp [Op.writes,KeyOp.writes,wakeKeys]) u
  cases ht : ownerTurn payload with
  | none =>
    have hall : beforeOffer payload config w = after (apply (Op.key (.putHookSeen
        (seenRecord w.machine payload config (register w.machine payload) .matched))) w)
        [Op.key (.putPhase .active),Op.key (.activeHook payload),Op.key .takeNotices] := by
      rw [beforeOffer,hookWrites,ht]
      rfl
    rw [hall,hlast,renewal,ht]
    rfl
  | some turn =>
    have hall : beforeOffer payload config w = after (apply (Op.key (.renew turn)) (apply
        (Op.key (.putHookSeen
          (seenRecord w.machine payload config (register w.machine payload) .matched))) w))
        [Op.key (.putPhase .active),Op.key (.activeHook payload),Op.key .takeNotices] := by
      rw [beforeOffer,hookWrites,ht]
      rfl
    rw [hall,hlast,renewal,ht,Option.bind_some]
    exact renew_remaining turn { w.store.keys with hookSeen := _ }

/-- What the hooks rely on: the configuration, a mode in which they offer, ids as the decoder lets
them through, and an allowance for everything received. -/
structure Ready (config : Config) (w : World) : Prop where
  config : w.store.keys.config = some config
  mode : hooksOffer w.store.keys = true
  ids : ∀ r ∈ w.store.pending, validId r.id = true
  allowance : pays w.store.keys.remaining w.store.pending.length = true

/-- The hook has taken stored notices, or dealt with the oldest message. -/
def Advances (w w' : World) : Prop :=
  (w.notes ≠ [] ∧ w'.notes = []) ∨ w'.store.pending.length < w.store.pending.length ∧
    ∀ r ∈ w.store.pending.head?, w'.store.status r.key ≠ some .received

section
variable {config : Config} {w : World} {v : Visit}

lemma visit_eq (h : Accepted v.machine v.payload config) (hconfig : w.store.keys.config = some config) :
    (visit w v).store = offer v.machine config
      { w with machine := v.machine : World }.noticeText
      (beforeOffer v.payload config { w with machine := v.machine }).store := by
  have halone := (deliver_alone (w := { w with machine := v.machine }) h hconfig).1
  rw [visit,halone]
  change offer (beforeOffer v.payload config { w with machine := v.machine }).machine _ _ _ = _
  rw [beforeOffer_machine]

lemma visit_back (h : Accepted v.machine v.payload config)
    (hconfig : w.store.keys.config = some config) {key : Str × Str}
    (hkey : (visit w v).store.status key = some .received) : w.store.status key = some .received := by
  rw [visit_eq h hconfig] at hkey
  have hpre := offer_back hkey
  rw [Store.status,beforeOffer_messages] at hpre
  exact hpre

lemma visit_same (key : MetaKey) (h : Accepted v.machine v.payload config)
    (hconfig : w.store.keys.config = some config) (hkey : key ∉ hookKeys)
    (hnotices : key ≠ .peerNotices) : key.Same w.store.keys (visit w v).store.keys := by
  have hbefore := beforeOffer_same v.payload config { w with machine := v.machine } key hkey hnotices
  have hoffer : key.Same _ _ := apply_frame
    (Op.inbox (.offer config ({ w with machine := v.machine } : World).noticeText))
    (beforeOffer v.payload config { w with machine := v.machine }) (by
      intro hmem
      rw [List.mem_singleton.mp hmem] at hkey
      exact hkey (by decide))
  have halone := (deliver_alone (w := { w with machine := v.machine }) h hconfig).1
  rw [visit,halone]
  cases key <;> exact hoffer.trans hbefore

lemma visit_notes (h : Accepted v.machine v.payload config)
    (hconfig : w.store.keys.config = some config) : (visit w v).notes = [] := by
  have hoffer : MetaKey.peerNotices.Same _ _ := apply_frame
    (Op.inbox (.offer config ({ w with machine := v.machine } : World).noticeText))
    (beforeOffer v.payload config { w with machine := v.machine }) (by simp [Op.writes])
  have halone := (deliver_alone (w := { w with machine := v.machine }) h hconfig).1
  rw [visit,halone]
  exact hoffer.trans (beforeOffer_notes ..)

lemma visit_fewer (h : Accepted v.machine v.payload config)
    (hconfig : w.store.keys.config = some config) :
    (visit w v).store.pending.length ≤ w.store.pending.length := by
  have hle := length_pending_add_le w.store (visit w v).store [] (fun _ => visit_back h hconfig) List.nodup_nil (by simp)
  simpa using hle

/-- A hook leaves the inbox ready for the next one. -/
lemma Ready.visit (hw : Ready config w) (h : Accepted v.machine v.payload config)
    (hrenewal : ∀ limit, renewal v.payload w.store.keys = some limit →
      (w.store.pending.length : ℤ) ≤ limit) : Ready config (visit w v) where
  config := (visit_same .config h hw.config (by decide) (by decide)).trans hw.config
  mode := by
    have hsame : (PeerChat.visit w v).store.keys.delivery = w.store.keys.delivery :=
      visit_same .delivery h hw.config (by decide) (by decide)
    rw [hooksOffer,hsame]
    exact hw.mode
  ids := by
    intro r hr
    have hkey := visit_back h hw.config (Store.status_of_mem_pending hr)
    obtain ⟨x,hx,hxk⟩ := List.mem_map.mp (Store.mem_pending_keys.mpr hkey)
    have hid : x.id = r.id := congrArg Prod.snd hxk
    rw [← hid]
    exact hw.ids x hx
  allowance := by
    have hpays : pays (beforeOffer v.payload config { w with machine := v.machine }).store.keys.remaining
        (beforeOffer v.payload config { w with machine := v.machine }).store.pending.length = true := by
      rw [beforeOffer_remaining,beforeOffer_pending]
      cases hr : renewal v.payload w.store.keys with
      | none => exact hw.allowance
      | some limit => exact decide_eq_true (hrenewal limit hr)
    have hoffer := offer_pays config ({ w with machine := v.machine } : World).noticeText hpays
    rw [beforeOffer_machine] at hoffer
    rw [visit_eq h hw.config]
    exact hoffer

/-- It takes the notices, or deals with the oldest message. -/
lemma Ready.advances (hw : Ready config w) (h : Accepted v.machine v.payload config)
    (hrenewal : ∀ limit, renewal v.payload w.store.keys = some limit →
      (w.store.pending.length : ℤ) ≤ limit) (hreceived : w.store.pending ≠ []) :
    Advances w (PeerChat.visit w v) := by
  by_cases hnotes : w.notes = []
  · right
    obtain ⟨row,rows,hpending⟩ := List.exists_cons_of_ne_nil hreceived
    have htext : ({ w with machine := v.machine } : World).noticeText = [] := by
      change noticesText v.machine w.notes = []
      rw [hnotes]
      rfl
    have hmode : hooksOffer
        (beforeOffer v.payload config { w with machine := v.machine }).store.keys = true := by
      have hsame := beforeOffer_same v.payload config { w with machine := v.machine }
        .delivery (by decide) (by decide)
      change (beforeOffer v.payload config { w with machine := v.machine }).store.keys.delivery =
        w.store.keys.delivery at hsame
      rw [hooksOffer,hsame]
      exact hw.mode
    have havail : available
        (beforeOffer v.payload config { w with machine := v.machine }).store.keys.remaining = true := by
      rw [beforeOffer_remaining]
      have hlen : w.store.pending.length = rows.length+1 := by rw [hpending,List.length_cons]
      cases hr : renewal v.payload w.store.keys with
      | none => exact pays_available (k := rows.length) (by rw [← hlen]; exact hw.allowance)
      | some limit =>
        have := hrenewal limit hr
        simp only [available,decide_eq_true_eq]
        omega
    have hoffer := offer_oldest v.machine config hmode havail
      ((beforeOffer_pending ..).trans hpending) (hw.ids row (by rw [hpending]; simp))
    have hdealt : (PeerChat.visit w v).store.status row.key ≠ some .received := by
      rw [visit_eq h hw.config,htext]
      exact hoffer
    have hpre : w.store.status row.key = some .received :=
      Store.status_of_mem_pending (by rw [hpending]; simp)
    have hless := length_pending_add_le w.store (PeerChat.visit w v).store _
      (fun _ => visit_back h hw.config) (List.nodup_singleton row.key)
      (by simpa using ⟨hpre,hdealt⟩)
    rw [List.length_singleton] at hless
    refine ⟨Nat.lt_of_succ_le hless,?_⟩
    intro r hr
    rw [hpending] at hr
    obtain rfl : row = r := Option.some.inj hr
    exact hdealt
  · exact Or.inl ⟨hnotes,visit_notes h hw.config⟩

lemma visit_retains (h : Accepted v.machine v.payload config)
    (hconfig : w.store.keys.config = some config) : w.store.Retains (visit w v).store := by
  have hbefore : w.store.Retains
      (beforeOffer v.payload config { w with machine := v.machine }).store :=
    Store.Retains.of_messages (beforeOffer_messages v.payload config { w with machine := v.machine })
  rw [visit_eq h hconfig]
  exact hbefore.trans (Store.Retains.offer v.machine config _ _)

/-- A hook that deals with an eligible message offers it. -/
lemma visit_offers (h : Accepted v.machine v.payload config)
    (hconfig : w.store.keys.config = some config) {r : MessageRow} (hr : r ∈ w.store.pending)
    (helig : Eligible v.machine config r)
    (hdealt : (visit w v).store.status r.key ≠ some .received) :
    (visit w v).store.status r.key = some .hookOffered := by
  rw [visit_eq h hconfig] at hdealt ⊢
  have hmem : r ∈ (beforeOffer v.payload config { w with machine := v.machine }).store.pending := by
    rw [beforeOffer_pending]
    exact hr
  exact offer_of_eligible hmem helig hdealt

end

/-! A whole run of hooks. -/

/-- Where a hook of the owner's prompt renews the allowance, the new one pays for everything that is
received then. -/
def RenewsEnough (w : World) (vs : List Visit) : Prop := ∀ us v rest, vs = us ++ v::rest →
  ∀ limit, renewal v.payload (visits w us).store.keys = some limit →
    ((visits w us).store.pending.length : ℤ) ≤ limit

lemma RenewsEnough.tail {w : World} {v : Visit} {vs : List Visit} (h : RenewsEnough w (v::vs)) :
    RenewsEnough (visit w v) vs :=
  fun us u rest heq => h (v::us) u rest (by rw [heq]; rfl)

lemma RenewsEnough.part {w : World} (us vs rest : List Visit) (h : RenewsEnough w (us ++ vs ++ rest)) :
    RenewsEnough (visits w us) vs := by
  intro us' v rest' heq limit hlimit
  rw [← visits_append] at hlimit ⊢
  exact h (us ++ us') v (rest' ++ rest) (by rw [heq]; simp) limit hlimit

section
variable {config : Config} {w : World} {vs : List Visit}

lemma Ready.visits (us rest : List Visit) (hw : Ready config w)
    (hacc : ∀ v ∈ us ++ rest, Accepted v.machine v.payload config)
    (henough : RenewsEnough w (us ++ rest)) : Ready config (visits w us) := by
  induction us generalizing w with
  | nil => exact hw
  | cons u us ih =>
    have hnext := hw.visit (hacc u (by simp)) (henough [] u (us ++ rest) rfl)
    exact ih hnext (fun v hv => hacc v (List.mem_cons_of_mem _ hv)) henough.tail

/-- Once the notices are gone, every hook deals with a message as long as there is one. -/
lemma length_visits_le (hw : Ready config w) (hnotes : w.notes = [])
    (hacc : ∀ v ∈ vs, Accepted v.machine v.payload config) (henough : RenewsEnough w vs) :
    (visits w vs).store.pending.length ≤ w.store.pending.length - vs.length := by
  induction vs generalizing w with
  | nil => simp
  | cons v vs ih =>
    have hv := hacc v (List.mem_cons_self ..)
    have hrenewal := henough [] v vs rfl
    have hrest := ih (hw.visit hv hrenewal) (visit_notes hv hw.config)
      (fun u hu => hacc u (List.mem_cons_of_mem _ hu)) henough.tail
    rw [visits_cons,List.length_cons]
    by_cases hreceived : w.store.pending = []
    · have hle := visit_fewer hv hw.config
      rw [hreceived,List.length_nil] at hle ⊢
      omega
    · rcases hw.advances hv hrenewal hreceived with ⟨hsome,-⟩ | ⟨hless,-⟩
      · exact absurd hnotes hsome
      · omega

lemma visits_back (hw : Ready config w) (hacc : ∀ v ∈ vs, Accepted v.machine v.payload config)
    (henough : RenewsEnough w vs) {key : Str × Str}
    (hkey : (visits w vs).store.status key = some .received) : w.store.status key = some .received := by
  induction vs generalizing w with
  | nil => exact hkey
  | cons v vs ih =>
    have hv := hacc v (List.mem_cons_self ..)
    have hrest := ih (hw.visit hv (henough [] v vs rfl))
      (fun u hu => hacc u (List.mem_cons_of_mem _ hu)) henough.tail hkey
    exact visit_back hv hw.config hrest

lemma visits_retains (hw : Ready config w) (hacc : ∀ v ∈ vs, Accepted v.machine v.payload config)
    (henough : RenewsEnough w vs) : w.store.Retains (visits w vs).store := by
  induction vs generalizing w with
  | nil => exact Store.Retains.refl _
  | cons v vs ih =>
    have hv := hacc v (List.mem_cons_self ..)
    have hrest := ih (hw.visit hv (henough [] v vs rfl))
      (fun u hu => hacc u (List.mem_cons_of_mem _ hu)) henough.tail
    exact (visit_retains hv hw.config).trans hrest

/-- The hook with this number offers the message. -/
def OffersAt (w : World) (vs : List Visit) (i : ℕ) (key : Str × Str) : Prop := i < vs.length ∧
  (visits w (vs.take i)).store.status key = some .received ∧
  (visits w (vs.take (i+1))).store.status key = some .hookOffered

lemma exists_last {P : ℕ → Prop} {n : ℕ} (h0 : P 0) (hn : ¬ P n) : ∃ i < n, P i ∧ ¬ P (i+1) := by
  induction n with
  | zero => exact absurd h0 hn
  | succ n ih =>
    by_cases h : P n
    · exact ⟨n,Nat.lt_succ_self n,h,hn⟩
    · obtain ⟨i,hi,hp⟩ := ih h
      exact ⟨i,Nat.lt_succ_of_lt hi,hp⟩

/-- A message that is received after some of the hooks was received after fewer. -/
lemma visits_take_back (hw : Ready config w)
    (hacc : ∀ v ∈ vs, Accepted v.machine v.payload config) (henough : RenewsEnough w vs)
    {k l : ℕ} (hkl : k ≤ l) {key : Str × Str}
    (hkey : (visits w (vs.take l)).store.status key = some .received) :
    (visits w (vs.take k)).store.status key = some .received := by
  have hsplit : vs = vs.take k ++ (vs.take l).drop k ++ vs.drop l := by
    have hl : vs.take k ++ (vs.take l).drop k = vs.take l := by
      conv_rhs => rw [← List.take_append_drop k (vs.take l)]
      rw [List.take_take,min_eq_left hkl]
    rw [hl,List.take_append_drop]
  have hready : Ready config (visits w (vs.take k)) := by
    refine Ready.visits (vs.take k) (vs.drop k) hw ?_ ?_
    · rw [List.take_append_drop]
      exact hacc
    · rw [List.take_append_drop]
      exact henough
  have hlater : visits w (vs.take l) = visits (visits w (vs.take k)) ((vs.take l).drop k) := by
    rw [← visits_append]
    congr 1
    conv_lhs => rw [← List.take_append_drop k (vs.take l)]
    rw [List.take_take,min_eq_left hkl]
  rw [hlater] at hkey
  refine visits_back hready ?_ ?_ hkey
  · intro v hv
    exact hacc v ((List.take_sublist ..).subset ((List.drop_sublist ..).subset hv))
  · rw [hsplit] at henough
    have hpart := RenewsEnough.part _ _ _ henough
    exact hpart

/-- An eligible message that is no longer received has been offered, and once only. -/
lemma exists_unique_offersAt (hw : Ready config w)
    (hacc : ∀ v ∈ vs, Accepted v.machine v.payload config) (henough : RenewsEnough w vs)
    {r : MessageRow} (hr : r ∈ w.store.pending) (helig : ∀ v ∈ vs, Eligible v.machine config r)
    (hend : (visits w vs).store.status r.key ≠ some .received) : ∃! i, OffersAt w vs i r.key := by
  have hlast := exists_last (P := fun i => (visits w (vs.take i)).store.status r.key = some .received)
    (n := vs.length) (Store.status_of_mem_pending hr) (by rw [List.take_length]; exact hend)
  obtain ⟨i,hi,hpre,hpost⟩ := hlast
  refine ⟨i,⟨hi,hpre,?_⟩,?_⟩
  · have htake : vs.take i ++ vs.drop i = vs := List.take_append_drop i vs
    have hready : Ready config (visits w (vs.take i)) :=
      Ready.visits (vs.take i) (vs.drop i) hw (by rw [htake]; exact hacc) (by rw [htake]; exact henough)
    have hnext : visits w (vs.take (i+1)) = visit (visits w (vs.take i)) vs[i] := by
      rw [List.take_succ_eq_append_getElem hi,visits_append]
      rfl
    -- the row as it is then
    obtain ⟨x,hx,hxk⟩ := List.mem_map.mp (Store.mem_pending_keys.mpr hpre)
    have hkept : w.store.Retains (visits w (vs.take i)).store := visits_retains hw
      (fun v hv => hacc v ((List.take_sublist ..).subset hv))
      (RenewsEnough.part [] (vs.take i) (vs.drop i) (by rw [List.nil_append,htake]; exact henough))
    obtain ⟨x',hx',hcontent⟩ := hkept r.key r (Store.mem_select.mp hr).1
    have hxf := (Store.mem_select.mp hx).1
    rw [hxk,hx'] at hxf
    obtain rfl : x' = x := Option.some.inj hxf
    have heligible := (helig vs[i] (List.getElem_mem hi)).congr hxk hcontent
    rw [hnext] at hpost ⊢
    rw [← hxk] at hpost ⊢
    exact visit_offers (hacc vs[i] (List.getElem_mem hi)) hready.config hx heligible hpost
  · intro j hj
    obtain ⟨hjlt,hjpre,hjpost⟩ := hj
    by_contra hne
    rcases Nat.lt_or_gt_of_ne hne with hlt | hlt
    · have hback := visits_take_back hw hacc henough (k := j+1) (l := i) hlt hpre
      rw [hjpost] at hback
      cases hback
    · exact hpost (visits_take_back hw hacc henough (k := i+1) (l := j) hlt hjpre)

end

/-- Hooks drain the inbox. Each one that finds a received message takes stored notices or deals with
the oldest message; after more hooks than there were messages none is received, and exactly one of
the hooks has offered each message that is eligible throughout. -/
theorem hooks_drain {config : Config} {w : World} {vs : List Visit} (hw : Ready config w)
    (hacc : ∀ v ∈ vs, Accepted v.machine v.payload config) (henough : RenewsEnough w vs) :
    (∀ us v rest, vs = us ++ v::rest → (visits w us).store.pending ≠ [] →
      Advances (visits w us) (visits w (us ++ [v]))) ∧
    (w.store.pending.length < vs.length → (visits w vs).store.pending = [] ∧
      ∀ r ∈ w.store.pending, (∀ v ∈ vs, Eligible v.machine config r) →
        ∃! i, OffersAt w vs i r.key) := by
  constructor
  · intro us v rest heq hreceived
    have hready : Ready config (visits w us) := by
      rw [heq] at hacc henough
      exact Ready.visits us _ hw hacc henough
    rw [visits_append]
    exact hready.advances (hacc v (by rw [heq]; simp)) (henough us v rest heq) hreceived
  · intro hlen
    have hnone : (visits w vs).store.pending = [] := by
      cases vs with
      | nil => cases hlen
      | cons v vs =>
        have hv := hacc v (List.mem_cons_self ..)
        have hle := length_visits_le (hw.visit hv (henough [] v vs rfl)) (visit_notes hv hw.config)
          (fun u hu => hacc u (List.mem_cons_of_mem _ hu)) henough.tail
        have hfewer := visit_fewer hv hw.config
        rw [List.length_cons] at hlen
        rw [visits_cons,← List.length_eq_zero_iff]
        omega
    refine ⟨hnone,fun r hr helig => exists_unique_offersAt hw hacc henough hr helig ?_⟩
    intro hrec
    have hmem := Store.mem_pending_keys.mpr hrec
    rw [hnone] at hmem
    cases hmem

/-! The five messages again, and a prompt of the owner. -/

/-- Six uses of a tool. -/
def toolUses : List Visit := List.replicate 6 ⟨hookMachine,sampleToolUse⟩

theorem hooks_drain_crowded : (visits crowded toolUses).store.pending = [] := by
  have hacc : ∀ v ∈ toolUses, Accepted v.machine v.payload sampleConfig := by
    intro v hv
    rw [(List.mem_replicate.mp hv).2]
    exact crowded_accepted
  have hready : Ready sampleConfig crowded := {
    config := crowded_config
    mode := by decide +kernel
    ids := by decide +kernel
    allowance := by decide +kernel }
  have henough : RenewsEnough crowded toolUses := by
    intro us v rest heq limit hlimit
    have hv : v ∈ toolUses := by rw [heq]; simp
    rw [(List.mem_replicate.mp hv).2] at hlimit
    cases hlimit
  exact ((hooks_drain hready hacc henough).2 (by decide +kernel)).1

/-- The allowance pays for the received message, and the window that a prompt opens does not: a start
that ends between its writes of the two leaves them so. -/
def narrowed (received : List Op) : World := after (World.new hookMachine) ([
  .key (.putConfig sampleConfig),.key (.putDelivery .live),.key (.putBudget .remaining (.count 1)),
  .key (.putBudget .budgetLimit (.count 0))] ++ received)

/-- With an allowance for everything received, a hook can still leave the only message and take no
notice: where a prompt closes the window, and where nothing is received at all. -/
theorem hooks_stall : ∃ w w', Ready sampleConfig w ∧ w.store.pending.length = 1 ∧
    Ready sampleConfig w' ∧ w'.store.pending.length = 0 ∧
    Accepted hookMachine samplePrompt sampleConfig ∧
    ¬ Advances w (visits w [⟨hookMachine,samplePrompt⟩]) ∧
    ¬ Advances w' (visits w' [⟨hookMachine,samplePrompt⟩]) := by
  have hready : ∀ received : List Op, received = [sampleReceived 5 []] ∨ received = [] →
      Ready sampleConfig (narrowed received) := by
    intro received h
    rcases h with rfl | rfl
    · exact {
        config := by decide +kernel
        mode := by decide +kernel
        ids := by decide +kernel
        allowance := by decide +kernel }
    · exact {
        config := by decide +kernel
        mode := by decide +kernel
        ids := by decide +kernel
        allowance := by decide +kernel }
  refine ⟨narrowed [sampleReceived 5 []],narrowed [],hready _ (Or.inl rfl),by decide +kernel,
    hready _ (Or.inr rfl),by decide +kernel,
    ⟨rfl,by decide +kernel,by decide +kernel⟩,?_,?_⟩
  · rintro (⟨hnotes,-⟩ | ⟨hless,-⟩)
    · exact hnotes (by decide +kernel)
    · revert hless
      decide +kernel
  · rintro (⟨hnotes,-⟩ | ⟨hless,-⟩)
    · exact hnotes (by decide +kernel)
    · revert hless
      decide +kernel

end PeerChat
