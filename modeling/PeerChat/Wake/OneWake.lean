import PeerChat.Budget.Wakes
import PeerChat.Dispatch.Guarded
import PeerChat.Wake.Producer

/-! One wake per message. The marker names its message by the id alone; as long as no
acknowledgement of another message takes it away, a message is announced once for every decision of
an active hook and every change of the owner. -/
namespace PeerChat.Wake
open Python Relational Wire Interleaving

/-- The message that a step claims a wake for. -/
def claimedKey (t : Step World Op) : Option (Str × Str) :=
  match t.label with
  | .inbox (.claimWake config) => (claimed t.pre.machine config t.pre.store).map (·.key)
  | _ => none

/-- An active hook decides the wake with this id, or an owner change drops the marker. -/
def frees (id : Str) (t : Step World Op) : Bool :=
  match t.label with
  | .key (.activeHook _) => t.pre.store.keys.wakePending.any (·.id = id) &&
      t.post.store.keys.wakePending.isNone
  | .key (.changeOwner _) | .key .nullWake => true
  | _ => false

/-- An acknowledgement deletes the marker. -/
def ackDeletes (t : Step World Op) : Bool :=
  t.label.clearsWake && t.pre.store.keys.wakePending.isSome && t.post.store.keys.wakePending.isNone

/-- No wake is claimed for the message while one is under way, which the flag says; one is under way
from its claim until it is freed. -/
def OneWake (key : Str × Str) : Bool → List (Step World Op) → Prop
  | _, [] => True
  | underway, t::ts => (underway = true → claimedKey t ≠ some key) ∧
      OneWake key (if claimedKey t = some key then true else underway && !frees key.2 t) ts

instance (key : Str × Str) (b : Bool) (ts : List (Step World Op)) : Decidable (OneWake key b ts) := by
  induction ts generalizing b with
  | nil => exact isTrue trivial
  | cons t ts ih => exact @instDecidableAnd _ _ _ (ih _)

/-- Acknowledgements delete the marker only where the message that the last wake was claimed for,
if there was one, is not unread any more. -/
def DeletesSpent : Option (Str × Str) → List (Step World Op) → Prop
  | _, [] => True
  | last, t::ts =>
    (ackDeletes t = true → ∀ key, last = some key → t.post.store.status key ≠ some .received) ∧
      DeletesSpent ((claimedKey t).or last) ts

instance (last : Option (Str × Str)) (ts : List (Step World Op)) :
    Decidable (DeletesSpent last ts) := by
  induction ts generalizing last with
  | nil => exact isTrue trivial
  | cons t ts ih =>
    have spent : Decidable (∀ key ∈ last, t.post.store.status key ≠ some .received) := inferInstance
    exact @instDecidableAnd _ _ (@instDecidableForall _ _ _ spent) (ih _)

lemma claimedKey_eq_some {key : Str × Str} {t : Step World Op} (h : claimedKey t = some key) :
    ∃ row, ClaimsFor row t ∧ row.key = key := by
  rw [claimedKey] at h
  split at h
  · rename_i config hl
    obtain ⟨row,hrow,hk⟩ := Option.map_eq_some_iff.mp h
    exact ⟨row,⟨config,hl,hrow⟩,hk⟩
  · cases h

/-- What is claimed is unread, and there is no marker. -/
lemma claimedKey_pre {key : Str × Str} {t : Step World Op} (h : claimedKey t = some key) :
    t.pre.store.keys.wakePending = none ∧ t.pre.store.status key = some .received := by
  obtain ⟨row,hclaim,rfl⟩ := claimedKey_eq_some h
  have hmay := hclaim.mayClaim
  obtain ⟨config,-,hc⟩ := hclaim
  simp only [mayClaim,Bool.and_eq_true,decide_eq_true_eq] at hmay
  exact ⟨hmay.2,Store.status_of_mem_pending (claimed_eligible hc).1⟩

/-- A record of a wake that is under way keeps its marker. -/
lemma recordWake_held {now : Time} {marker : Marker} {k : Meta} (h : Held marker.id k) :
    Held marker.id (recordWake now marker k) := by
  obtain ⟨p,hp,hid⟩ := h
  have hne : k.wakePending ≠ none := by simp [hp]
  have hcases : recordWake now marker k = k ∨ producing marker.status = true ∧ ∃ e,
      recordWake now marker k = record now marker.id marker.status e k := by
    simp only [recordWake]
    split_ifs with hv
    · exact Or.inl rfl
    · have hprod : producing marker.status = true := by simpa using (not_or.mp hv).2
      split
      · exact Or.inr ⟨hprod,_,rfl⟩
      · split_ifs with h1 h2
        · exact Or.inl rfl
        · exact absurd h2.2.2.2 hne
        · exact Or.inr ⟨hprod,_,rfl⟩
  rcases hcases with heq | ⟨hprod,e,heq⟩
  · rw [heq]
    exact ⟨p,hp,hid⟩
  · rw [heq]
    rcases record_cases now marker.id marker.status e k with ⟨-,-,-,-,-,hsame,-⟩ |
        ⟨-,r,k₀,hrec,hr,hst⟩
    · exact ⟨p,hsame.trans hp,hid⟩
    · rw [hrec]
      exact ⟨_,by rw [settle,hst,if_pos hprod],hr⟩

/-- The marker of a wake that is under way stays, unless an acknowledgement deletes it or the wake
is freed. -/
lemma held_step {id : Str} {t : Step World Op} (hheld : Held id t.pre.store.keys)
    (hown : ∀ marker, t.label = .key (.recordWake marker) → MarkerIs marker.id t.pre)
    (hack : ackDeletes t = false) (hfree : frees id t = false) : Held id t.post.store.keys := by
  obtain ⟨l,w⟩ := t
  obtain ⟨p,hp,hid⟩ : Held id w.store.keys := hheld
  have hsame : (apply l w).store.keys.wakePending = w.store.keys.wakePending →
      Held id (apply l w).store.keys := fun h => ⟨p,h.trans hp,hid⟩
  by_cases hw : MetaKey.wakePending ∈ l.writes
  · cases l with
    | inbox op =>
      rcases InboxOp.keys_cases w.machine w.store op with hk | ⟨hc,hk⟩ | ⟨config,row,rfl,hc,-⟩ | ⟨-,hk⟩
      · exact hsame (congrArg Meta.wakePending hk)
      · have hgone : (apply (Op.inbox op) w).store.keys.wakePending = none :=
          (congrArg Meta.wakePending hk).trans rfl
        simp [ackDeletes,Op.clearsWake,hc,hp,Step.post,hgone] at hack
      · have hmay := (show ClaimsFor row ⟨.inbox (.claimWake config),w⟩ from ⟨config,rfl,hc⟩).mayClaim
        simp [mayClaim,hp] at hmay
      · exact hsame ((congrArg Meta.wakePending hk).trans rfl)
    | key op =>
      cases op with
      | activeHook payload =>
        rcases activeHook_cases w.machine.now payload w.store.keys with ⟨h,-⟩ | ⟨-,h⟩
        · exact hsame h
        · have hgone : (apply (Op.key (.activeHook payload)) w).store.keys.wakePending = none := h
          change (w.store.keys.wakePending.any (·.id = id) && (apply (Op.key (.activeHook payload)) w).store.keys.wakePending.isNone) = false at hfree
          simp only [hp,hgone,hid,Option.any_some,decide_true,Option.isNone_none,Bool.and_self,
            Bool.true_eq_false] at hfree
      | recordWake marker =>
        have hm : marker.id = id := ((hown marker rfl p hp).symm.trans hid)
        subst hm
        exact recordWake_held ⟨p,hp,hid⟩
      | dropWake => simp [ackDeletes,Op.clearsWake,hp,Step.post,KeyOp.apply] at hack
      | nullWake => cases hfree
      | changeOwner b => cases hfree
      | putBudget b value => cases b <;> simp [Op.writes,KeyOp.writes,BudgetKey.metaKey] at hw
      | configureDelivery mode budget =>
        cases budget <;> simp [Op.writes,KeyOp.writes,windowKeys] at hw
      | _ => simp [Op.writes,KeyOp.writes] at hw
    | _ => simp [Op.writes] at hw
  · exact hsame (apply_frame l w hw)

/-- What is known of a message while its wake is under way: it is there; and it is not unread any
more, or its marker is there and is the last claim's. -/
def UnderWay (key : Str × Str) (last : Option (Str × Str)) (w : World) : Prop :=
  ∃ st, w.store.status key = some st ∧ (st = .received → Held key.2 w.store.keys ∧ last = some key)

/-- A message that is there stays. -/
lemma status_exists {op : Op} {w : World} {key : Str × Str} {st : Status}
    (h : w.store.status key = some st) : ∃ st', (apply op w).store.status key = some st' := by
  obtain ⟨r,hr,-⟩ := Option.map_eq_some_iff.mp h
  obtain ⟨x,hx,-⟩ := retains_step op w key r hr
  exact ⟨x.status,by rw [Store.status,hx]; rfl⟩

lemma UnderWay.step {key : Str × Str} {last : Option (Str × Str)} {t : Step World Op}
    (h : UnderWay key last t.pre)
    (hown : ∀ marker, t.label = .key (.recordWake marker) → MarkerIs marker.id t.pre)
    (hdel : ackDeletes t = true → ∀ key, last = some key →
      t.post.store.status key ≠ some .received)
    (hfree : frees key.2 t = false) : UnderWay key ((claimedKey t).or last) t.post := by
  obtain ⟨st,hst,hrec⟩ := h
  have hstep := status_step t.label t.pre key
  rw [hst] at hstep
  by_cases hne : st = .received
  · obtain ⟨hheld,hlast⟩ := hrec hne
    obtain ⟨st',hst'⟩ : ∃ st', t.post.store.status key = some st' := status_exists hst
    refine ⟨st',hst',?_⟩
    rintro rfl
    cases hack : ackDeletes t with
    | true => exact absurd hst' (hdel hack key hlast)
    | false =>
      refine ⟨held_step hheld hown hack hfree,?_⟩
      -- with a marker there is no other claim
      cases hc : claimedKey t with
      | none => exact hlast
      | some k => exact absurd hheld (held_of_none (claimedKey_pre hc).1)
  · obtain ⟨st',hst',hne'⟩ := hstep.spent hne
    exact ⟨st',hst',fun he => absurd he hne'⟩

lemma oneWake_of_deletesSpent (key : Str × Str) (ls : List Op) {w : World} {underway : Bool}
    {last : Option (Str × Str)} (hw : underway = true → UnderWay key last w)
    (hown : ∀ t ∈ stepsOf w ls, ∀ marker, t.label = .key (.recordWake marker) →
      MarkerIs marker.id t.pre)
    (hspent : DeletesSpent last (stepsOf w ls)) : OneWake key underway (stepsOf w ls) := by
  induction ls generalizing w underway last with
  | nil => trivial
  | cons l ls ih =>
    obtain ⟨hdel,hspent⟩ := hspent
    let t : Step World Op := ⟨l,w⟩
    have hown' : ∀ u ∈ stepsOf (apply l w) ls, ∀ marker, u.label = .key (.recordWake marker) →
        MarkerIs marker.id u.pre := fun u hu => hown u (List.mem_cons_of_mem _ hu)
    by_cases hclaim : claimedKey t = some key
    · obtain ⟨hnone,hrec⟩ := claimedKey_pre hclaim
      refine ⟨fun hu => ?_,?_⟩
      · -- a message whose wake is under way has a marker, or is not unread
        obtain ⟨st,hst,hheld⟩ := hw hu
        have hr : st = .received := Option.some.inj (hst.symm.trans hrec)
        exact absurd (hheld hr).1 (held_of_none hnone)
      · rw [if_pos hclaim]
        refine ih (fun _ => ?_) hown' hspent
        obtain ⟨row,⟨config,hl,hc⟩,hk⟩ := claimedKey_eq_some hclaim
        obtain rfl : l = .inbox (.claimWake config) := hl
        obtain ⟨st,hst⟩ := @status_exists (.inbox (.claimWake config)) _ _ _ hrec
        refine ⟨st,hst,fun _ => ⟨?_,?_⟩⟩
        · rw [← hk]
          exact (claim_held hc).1
        · change (claimedKey t).or last = some key
          rw [hclaim]
          rfl
    · refine ⟨fun _ => hclaim,?_⟩
      rw [if_neg hclaim]
      refine ih (fun hu => ?_) hown' hspent
      simp only [Bool.and_eq_true,Bool.not_eq_true'] at hu
      exact (hw hu.1).step (t := t) (hown t (List.mem_cons_self ..)) hdel hu.2

/-- A claim finds no marker and leaves its own, and takes exactly one unit from a finite wake
allowance. -/
def ClaimsOnce (t : Step World Op) : Prop :=
  ∀ row, ClaimsFor row t → t.pre.store.keys.wakePending = none ∧ Held row.id t.post.store.keys ∧
    ∀ n, wakesLeft t.pre.store.keys = some (.count n) →
      0 < n ∧ t.post.store.keys.wakeRemaining = some (.count (n-1))

lemma claimsOnce (t : Step World Op) : ClaimsOnce t := by
  intro row h
  have hmay := h.mayClaim
  simp only [mayClaim,Bool.and_eq_true,decide_eq_true_eq] at hmay
  obtain ⟨⟨-,ha⟩,hnone⟩ := hmay
  rw [h.keys]
  refine ⟨hnone,⟨_,rfl,rfl⟩,fun n hn => ?_⟩
  rw [hn] at ha
  refine ⟨by simpa [available] using ha,?_⟩
  rw [claimKeys,hn,Option.map_some,spend_count ha]

/-- In every run of the bridge, from any state: a claim finds no marker, leaves its own and takes
exactly one unit from a finite wake allowance; and where acknowledgements delete the marker only
once the message of the last claim is not unread any more, no second wake is claimed for a message
before an active hook has decided the first or an owner change has dropped it. -/
theorem one_wake (U : Interp) (honest : Bool) (w : World) (es : Schedule) :
    (∀ t ∈ (bridge U honest).trace (.idle w) es, ClaimsOnce t) ∧
    (DeletesSpent none ((bridge U honest).trace (.idle w) es) →
      ∀ key, OneWake key false ((bridge U honest).trace (.idle w) es)) := by
  refine ⟨fun t _ => claimsOnce t,fun hspent key => ?_⟩
  have hown := records_own U honest w es
  obtain ⟨ls,htrace,-⟩ := (bridge U honest).exists_labels (.idle w) es
  rw [htrace] at hspent hown ⊢
  exact oneWake_of_deletesSpent key ls (by rintro ⟨⟩) hown hspent

/-- Two peers have sent messages with the same id; the older one is announced, the owner
acknowledges the message of `peer`, and the listener makes another pass. -/
def sharedIdRun (peer : Str) : Schedule :=
  .start 0 (.start {
    thread := sampleId.text
    ownerPid := some 7
    requested := some (.ok samplePeer)
    delivery := some .auto
    socket := str "/run/own.sock" }) :: List.replicate 15 (.step 0) ++
  .start 1 (.start { thread := sampleId.text, requested := some (.ok otherPeer) }) ::
    List.replicate 12 (.step 1) ++
  [.start 2 (.accept (str "41:9") (.message sampleId.text (str "hello") .prompting [])),.step 2,
    .start 3 (.accept (str "51:9") (.message sampleId.text (str "hello") .prompting [])),.step 3,
    .start 4 (.connectSeed .idle),.step 4,.start 5 (.serve 50 [false,false])] ++
  List.replicate 15 (.step 5) ++
  [.start 6 (.readById (some peer) sampleId.text true),.step 6,.step 6] ++
  List.replicate 6 (.step 5)

/-- The announced message itself is acknowledged. -/
theorem one_wake_own_ack : OneWake (str "41:9",sampleId.text) false
    ((bridge .ascii true).trace (.idle (.new sampleMachine)) (sharedIdRun (str "41:9"))) :=
  (one_wake .ascii true (.new sampleMachine) (sharedIdRun (str "41:9"))).2 (by decide +kernel)
    (str "41:9",sampleId.text)

/-- The message of the other peer is acknowledged, and the first one is announced again. -/
theorem shared_id_wakes_twice : ¬ ∀ (U : Interp) (honest : Bool) (m : Machine) (es : Schedule)
    (key : Str × Str), OneWake key false ((bridge U honest).trace (.idle (.new m)) es) := by
  intro h
  have := h .ascii true sampleMachine (sharedIdRun (str "51:9")) (str "41:9",sampleId.text)
  revert this
  decide +kernel

end PeerChat.Wake
