import PeerChat.System.Bridge

/-! What one access can do to the status of one message. Every invariant of the inbox follows
from this relation. -/
namespace PeerChat
open Python Relational Interleaving

/-- The change of one status under an access. -/
def StatusStep (op : Op) (a b : Option Status) : Prop :=
  b = a ∨ match op with
  | .inbox (.accept ..) => a = none ∧ b = some .received
  | .inbox .readAck | .inbox (.readAckFrom _) =>
    (∃ st, a = some st ∧ ackable st = true) ∧ b = some .consumed
  | .inbox (.ackById ..) => a.isSome = true ∧ b = some .consumed
  | .inbox (.setStatus _ _ outcome _) =>
    (∃ st, a = some st ∧ st ≠ .consumed) ∧ b = some outcome.toStatus
  | .inbox (.offer ..) => a = some .received ∧ (b = some .held ∨ b = some .hookOffered)
  | .inbox (.claimForwarding ..) => a = some .received ∧ b = some .forwarding
  | .inbox (.claimWake _) => a = some .received ∧ b = some .held
  | .restart => a = some .forwarding ∧ b = some .queueUncertain
  | _ => False

/-- The transactions that hand messages over: a hook's offer and the queue mode's claim. -/
def Op.automatic : Op → Bool
  | .inbox (.offer ..) | .inbox (.claimForwarding ..) => true
  | _ => false

namespace Store

/-- A guarded update moves the rows that the guard selects, to its status. -/
lemma status_setRows_cases (s : Store) (p : MessageRow → Bool) (st : Status) (d : Str)
    (key : Str × Str) : (s.setRows p st d).status key = s.status key ∨
      (∃ r, s.messages.find key = some r ∧ p r = true) ∧ (s.setRows p st d).status key = some st := by
  rw [status_setRows,status]
  cases hf : s.messages.find key with
  | none => exact Or.inl rfl
  | some r =>
    by_cases hp : p r = true
    · exact Or.inr ⟨⟨r,rfl,hp⟩,by simp [hp]⟩
    · exact Or.inl (by simp [hp])

lemma isRow_iff (row r : MessageRow) : isRow row r = true ↔ r.key = row.key := by
  simp [isRow,MessageRow.key]

/-- The update of one row. -/
lemma status_setRow (s : Store) (row : MessageRow) (st : Status) (d : Str) (key : Str × Str) :
    (s.setRows (isRow row) st d).status key =
      if key = row.key then (s.status key).map fun _ => st else s.status key := by
  rw [status_setRows,status]
  cases hf : s.messages.find key with
  | none => simp
  | some r =>
    have hk : r.key = key := (Table.find_some hf).2
    by_cases h : key = row.key
    · have hr : isRow row r = true := (isRow_iff row r).mpr (hk.trans h)
      simp [h,hr]
    · have hr : ¬ isRow row r = true := fun hr => h (hk.symm.trans ((isRow_iff row r).mp hr))
      simp [h,hr]

lemma status_of_mem_pending {s : Store} {r : MessageRow} (h : r ∈ s.pending) :
    s.status r.key = some .received := by
  obtain ⟨hf,hp⟩ := mem_select.mp h
  simp only [decide_eq_true_eq] at hp
  rw [status,hf,Option.map_some,hp]

lemma pending_nodup (s : Store) : (s.pending.map MessageRow.key).Nodup := Table.select_nodup ..

lemma pending_take_nodup (s : Store) (k : ℕ) : ((s.pending.take k).map MessageRow.key).Nodup :=
  s.pending_nodup.sublist ((List.take_sublist ..).map MessageRow.key)

lemma pending_take_status (s : Store) (k : ℕ) :
    ∀ r ∈ s.pending.take k, s.status r.key = some .received :=
  fun _ hr => status_of_mem_pending ((List.take_sublist ..).subset hr)

lemma pending_drop_key {s : Store} {k : ℕ} {r : MessageRow} (h : r ∈ s.pending.drop k) :
    r.key ∉ (s.pending.take k).map MessageRow.key := by
  intro hk
  have hdis := s.pending_nodup
  rw [← List.take_append_drop k s.pending,List.map_append] at hdis
  exact List.disjoint_of_nodup_append hdis hk (List.mem_map_of_mem h)

@[simp] lemma status_clearConsumedWake (s : Store) (key : Str × Str) :
    s.clearConsumedWake.status key = s.status key := by
  rw [status,clearConsumedWake_messages,status]

end Store

/-- The loop of the offering transaction moves only received rows of its list. -/
lemma offerRows_status {m : Machine} {config : Config} {rows : List MessageRow} {b b' : Batch}
    (h : offerRows m config rows b = .ok b') (hnd : (rows.map MessageRow.key).Nodup)
    (hrec : ∀ r ∈ rows, b.store.status r.key = some .received) (key : Str × Str) :
    b'.store.status key = b.store.status key ∨ key ∈ rows.map MessageRow.key ∧
      (b'.store.status key = some .held ∨ b'.store.status key = some .hookOffered) := by
  induction rows generalizing b with
  | nil =>
    cases h
    exact Or.inl rfl
  | cons row rows ih =>
    obtain ⟨hnot,hnd⟩ := List.nodup_cons.mp hnd
    -- what follows one update of the first row, to either status
    have hstep : ∀ (st : Status) (d : Str) (c : Batch),
        c.store = b.store.setRows (isRow row) st d → (st = .held ∨ st = .hookOffered) →
        offerRows m config rows c = .ok b' →
        b'.store.status key = b.store.status key ∨ key ∈ (row::rows).map MessageRow.key ∧
          (b'.store.status key = some .held ∨ b'.store.status key = some .hookOffered) := by
      intro st d c hc hst hrest
      have hrec' : ∀ r ∈ rows, c.store.status r.key = some .received := by
        intro r hr
        have hne : r.key ≠ row.key := fun he => hnot (he ▸ List.mem_map_of_mem hr)
        rw [hc,Store.status_setRow,if_neg hne]
        exact hrec r (by simp [hr])
      rcases ih hrest hnd hrec' with hi | ⟨hmem,hi⟩
      · rw [hc,Store.status_setRow] at hi
        by_cases hk : key = row.key
        · rw [if_pos hk,hk,hrec row (by simp),Option.map_some,← hk] at hi
          refine Or.inr ⟨by simp [hk],?_⟩
          rcases hst with rfl | rfl
          · exact Or.inl hi
          · exact Or.inr hi
        · rw [if_neg hk] at hi
          exact Or.inl hi
      · exact Or.inr ⟨List.mem_cons_of_mem _ hmem,hi⟩
    rcases offerRows_cons h with rfl | ⟨reason,-,hrest⟩ | ⟨remaining,text,-,-,-,-,hrest⟩
    · exact Or.inl rfl
    · exact hstep _ _ _ rfl (Or.inl rfl) hrest
    · exact hstep _ _ _ rfl (Or.inr rfl) hrest

/-- After the loop's update of its first row, the others are still unread, and the first keeps its
new status to the end. -/
lemma offerRows_rest {m : Machine} {config : Config} {row : MessageRow} {rows : List MessageRow}
    {b c b' : Batch} {st : Status} {d : Str} (hrun : offerRows m config rows c = .ok b')
    (hc : c.store = b.store.setRows (isRow row) st d)
    (hnd : ((row::rows).map MessageRow.key).Nodup)
    (hrec : ∀ r ∈ row::rows, b.store.status r.key = some .received) :
    (∀ r ∈ rows, c.store.status r.key = some .received) ∧ b'.store.status row.key = some st := by
  obtain ⟨hnot,hnd⟩ := List.nodup_cons.mp hnd
  have hrow : c.store.status row.key = some st := by
    rw [hc,Store.status_setRow,if_pos rfl,hrec row (by simp),Option.map_some]
  have hrec' : ∀ r ∈ rows, c.store.status r.key = some .received := by
    intro r hr
    have hne : r.key ≠ row.key := fun he => hnot (he ▸ List.mem_map_of_mem hr)
    rw [hc,Store.status_setRow,if_neg hne]
    exact hrec r (by simp [hr])
  refine ⟨hrec',?_⟩
  rcases offerRows_status hrun hnd hrec' row.key with he | ⟨he,-⟩
  · rw [he,hrow]
  · exact absurd he hnot

/-- The loop over the oldest rows leaves those behind them alone. -/
lemma offerRows_behind {m : Machine} {config : Config} {s : Store} {k : ℕ} {b b' : Batch}
    (h : offerRows m config (s.pending.take k) b = .ok b') (hb : b.store = s) :
    ∀ r ∈ s.pending.drop k, b'.store.status r.key = some .received := by
  subst hb
  intro r hr
  obtain he | ⟨hk,-⟩ := offerRows_status h (b.store.pending_take_nodup k)
    (b.store.pending_take_status k) r.key
  · rw [he]
    exact Store.status_of_mem_pending ((List.drop_sublist ..).subset hr)
  · exact absurd hk (Store.pending_drop_key hr)

lemma offer_status (m : Machine) (config : Config) (notice : Str) (s : Store) (key : Str × Str) :
    (offer m config notice s).status key = s.status key ∨ s.status key = some .received ∧
      ((offer m config notice s).status key = some .held ∨
        (offer m config notice s).status key = some .hookOffered) := by
  simp only [offer]
  split
  · rename_i b hb
    obtain ⟨-,pieces,hrows⟩ := offerBatch_some hb
    rw [Store.status_setKeys]
    have hrec := s.pending_take_status 4
    rcases offerRows_status hrows (s.pending_take_nodup 4) hrec key with h | ⟨hk,h⟩
    · exact Or.inl h
    · obtain ⟨r,hr,rfl⟩ := List.mem_map.mp hk
      exact Or.inr ⟨hrec r hr,h⟩
  · exact Or.inl rfl

/-- The loop of the wake claim only holds received rows. -/
lemma holdUndeliverable_status (m : Machine) (config : Config) (rows : List MessageRow) (s : Store)
    (key : Str × Str) : (Wake.holdUndeliverable m config rows s).1.status key = s.status key ∨
      s.status key = some .received ∧
        (Wake.holdUndeliverable m config rows s).1.status key = some .held := by
  induction rows generalizing s with
  | nil => exact Or.inl rfl
  | cons row rows ih =>
    simp only [Wake.holdUndeliverable]
    split
    · rename_i reason _
      rcases s.status_setRows_cases (fun r => isRow row r && r.status = .received) .held reason key
        with he | ⟨⟨r,hf,hp⟩,he⟩
      · have hi := ih (s.setRows (fun r => isRow row r && r.status = .received) .held reason)
        rwa [he] at hi
      · simp only [Bool.and_eq_true,decide_eq_true_eq] at hp
        right
        refine ⟨by rw [Store.status,hf,Option.map_some,hp.2],?_⟩
        rcases ih (s.setRows (fun r => isRow row r && r.status = .received) .held reason) with hi | ⟨hi,-⟩
        · rw [hi,he]
        · rw [he] at hi
          cases hi
    · exact Or.inl rfl

lemma claim_status (m : Machine) (config : Config) (s : Store) (key : Str × Str) :
    (Wake.claim m config s).status key = s.status key ∨
      s.status key = some .received ∧ (Wake.claim m config s).status key = some .held := by
  have h := holdUndeliverable_status m config s.pending s key
  simp only [Wake.claim]
  split_ifs
  · cases hc : Wake.holdUndeliverable m config s.pending s with
    | mk s' row =>
      rw [hc] at h
      cases row with
      | none => exact h
      | some row => exact h
  · exact Or.inl rfl

/-- The claim of queue mode moves no row but its own. -/
lemma claimForwarding_status_other {peer id : Str} {key : Str × Str} (s : Store)
    (h : key ≠ (peer,id)) : (s.claimForwarding peer id).status key = s.status key := by
  simp only [Store.claimForwarding]
  split_ifs
  · rw [Store.status_setKeys,Store.status_markRows,Store.status]
    cases hf : s.messages.find key with
    | none => rfl
    | some r =>
      have hk : r.key = key := (Table.find_some hf).2
      have hp : ¬ (r.peer = peer && r.id = id && r.status = .received) = true := by
        intro hp
        simp only [Bool.and_eq_true,decide_eq_true_eq] at hp
        exact h (hk.symm.trans (by rw [MessageRow.key,hp.1.1,hp.1.2]))
      rw [Option.map_some,if_neg hp,Option.map_some]
  · rfl

/-- Every access follows the relation. -/
theorem status_step (op : Op) (w : World) (key : Str × Str) :
    StatusStep op (w.store.status key) ((apply op w).store.status key) := by
  cases op with
  | look what => exact Or.inl rfl
  | outside m => exact Or.inl rfl
  | key op => exact Or.inl rfl
  | sending op =>
    left
    simp [Store.status]
  | restart =>
    rcases w.store.status_setRows_cases (fun r => r.status = .forwarding) .queueUncertain
      (str "Bridge restarted during forwarding; no automatic retry") key with h | ⟨⟨r,hf,hp⟩,h⟩
    · exact Or.inl h
    · simp only [decide_eq_true_eq] at hp
      exact Or.inr ⟨by rw [Store.status,hf,Option.map_some,hp],h⟩
  | inbox op =>
    cases op with
    | accept peer id body mode hops =>
      simp only [StatusStep,apply,Op.apply,InboxOp.apply,Store.acceptMessage,Store.status,
        Table.find_insert]
      cases hf : w.store.messages.find key with
      | none => by_cases hk : key = MessageRow.key ⟨peer,id,body,mode,hops,.received,[],w.machine.now⟩ <;> simp [hk]
      | some r => left; split_ifs <;> rfl
    | readAck =>
      rcases w.store.status_setRows_cases (fun r => ackable r.status) .consumed ACK_DETAIL key
        with h | ⟨⟨r,hf,hp⟩,h⟩
      · exact Or.inl (by simpa [apply,Op.apply,InboxOp.apply,Store.readAck] using h)
      · exact Or.inr ⟨⟨r.status,by rw [Store.status,hf,Option.map_some],hp⟩,
          by simpa [apply,Op.apply,InboxOp.apply,Store.readAck] using h⟩
    | readAckFrom peer =>
      rcases w.store.status_setRows_cases (fun r => r.peer = peer && ackable r.status) .consumed
        ACK_DETAIL key with h | ⟨⟨r,hf,hp⟩,h⟩
      · exact Or.inl (by simpa [apply,Op.apply,InboxOp.apply,Store.readAckFrom] using h)
      · simp only [Bool.and_eq_true] at hp
        exact Or.inr ⟨⟨r.status,by rw [Store.status,hf,Option.map_some],hp.2⟩,
          by simpa [apply,Op.apply,InboxOp.apply,Store.readAckFrom] using h⟩
    | ackById peer id =>
      rcases w.store.status_setRows_cases (fun r => r.id = id && r.peer = peer) .consumed ACK_DETAIL
        key with h | ⟨⟨r,hf,-⟩,h⟩
      · exact Or.inl (by simpa [apply,Op.apply,InboxOp.apply,Store.ackById] using h)
      · exact Or.inr ⟨by rw [Store.status,hf]; rfl,
          by simpa [apply,Op.apply,InboxOp.apply,Store.ackById] using h⟩
    | setStatus peer id outcome detail =>
      rcases w.store.status_setRows_cases
        (fun r => r.peer = peer && r.id = id && r.status ≠ .consumed) outcome.toStatus detail key
        with h | ⟨⟨r,hf,hp⟩,h⟩
      · exact Or.inl h
      · simp only [Bool.and_eq_true,decide_eq_true_eq] at hp
        exact Or.inr ⟨⟨r.status,by rw [Store.status,hf,Option.map_some],hp.2⟩,h⟩
    | offer config notice => exact offer_status w.machine config notice w.store key
    | claimForwarding peer id =>
      simp only [StatusStep,apply,Op.apply,InboxOp.apply,Store.claimForwarding]
      split_ifs
      · rw [Store.status_setKeys,Store.status_markRows,Store.status]
        cases hf : w.store.messages.find key with
        | none => exact Or.inl rfl
        | some r =>
          simp only [Option.map_some]
          split_ifs with hp
          · simp only [Bool.and_eq_true,decide_eq_true_eq] at hp
            exact Or.inr ⟨by rw [hp.2],rfl⟩
          · exact Or.inl rfl
      · exact Or.inl rfl
    | claimWake config => exact claim_status w.machine config w.store key

/-- A row that was not there before has just been accepted. -/
theorem accepted_of_new {op : Op} {w : World} {key : Str × Str} {r : MessageRow}
    (hnone : w.store.messages.find key = none) (h : (apply op w).store.messages.find key = some r) :
    ∃ body mode, op = .inbox (.accept key.1 key.2 body mode r.hops) ∧ r.created = w.machine.now := by
  have hstep := status_step op w key
  rw [Store.status,Store.status,hnone,h,Option.map_some,Option.map_none] at hstep
  rcases hstep with he | he
  · cases he
  · split at he
    · rename_i peer id body mode hops
      change (w.store.messages.insert _).find key = some r at h
      rw [Table.find_insert,hnone] at h
      split_ifs at h with hkey
      cases h
      subst hkey
      exact ⟨body,mode,rfl,rfl⟩
    · exact absurd he.1 (by simp)
    · exact absurd he.1 (by simp)
    · exact absurd he.1 (by simp)
    · exact absurd he.1 (by simp)
    · exact absurd he.1 (by simp)
    · exact absurd he.1 (by simp)
    · exact absurd he.1 (by simp)
    · exact absurd he.1 (by simp)
    · exact he.elim

end PeerChat
