import PeerChat.Inbox.StatusSteps

/-! The content of a stored message never changes, and a stored message never disappears. -/
namespace PeerChat
open Python Relational Wire Interleaving

/-- A row without its status and the detail of it. -/
def MessageRow.content (r : MessageRow) : Str × Mode × List Str × Time :=
  (r.body,r.senderMode,r.hops,r.created)

/-- Every message of the first store is in the second, with its content. -/
def Store.Retains (s s' : Store) : Prop :=
  ∀ key r, s.messages.find key = some r → ∃ r', s'.messages.find key = some r' ∧ r'.content = r.content

namespace Store.Retains
variable {s s' s'' : Store}

lemma refl (s : Store) : s.Retains s := fun _ r h => ⟨r,h,rfl⟩

lemma trans (h : s.Retains s') (h' : s'.Retains s'') : s.Retains s'' := by
  intro key r hr
  obtain ⟨x,hx,hc⟩ := h key r hr
  obtain ⟨y,hy,hc'⟩ := h' key x hx
  exact ⟨y,hy,hc'.trans hc⟩

lemma of_messages (h : s'.messages = s.messages) : s.Retains s' := by
  intro key r hr
  exact ⟨r,by rw [h,hr],rfl⟩

lemma setRows (s : Store) (p : MessageRow → Bool) (st : Status) (d : Str) :
    s.Retains (s.setRows p st d) := by
  intro key r hr
  refine ⟨_,by rw [Store.find_setRows,hr,Option.map_some],?_⟩
  split_ifs <;> rfl

lemma markRows (s : Store) (p : MessageRow → Bool) (st : Status) :
    s.Retains (s.markRows p st) := by
  intro key r hr
  refine ⟨_,by rw [Store.find_markRows,hr,Option.map_some],?_⟩
  split_ifs <;> rfl

lemma acknowledge (s : Store) (p : MessageRow → Bool) :
    s.Retains (s.setRows p .consumed ACK_DETAIL).clearConsumedWake :=
  (setRows s p _ _).trans (of_messages (clearConsumedWake_messages _))

lemma offerRows {m : Machine} {config : Config} {rows : List MessageRow} {b b' : Batch}
    (h : offerRows m config rows b = .ok b') : b.store.Retains b'.store := by
  induction rows generalizing b with
  | nil =>
    cases h
    exact refl _
  | cons row rows ih =>
    rcases offerRows_cons h with rfl | ⟨reason,-,hrun⟩ | ⟨remaining,text,-,-,-,-,hrun⟩
    · exact refl _
    · exact (setRows _ _ _ _).trans (ih hrun)
    · exact (setRows _ _ _ _).trans (ih hrun)

lemma offer (m : Machine) (config : Config) (notice : Str) (s : Store) :
    s.Retains (offer m config notice s) := by
  simp only [PeerChat.offer]
  split
  · rename_i b hb
    obtain ⟨-,pieces,hrows⟩ := offerBatch_some hb
    exact (offerRows hrows).trans (of_messages rfl)
  · exact refl s

lemma holdUndeliverable (m : Machine) (config : Config) (rows : List MessageRow) (s : Store) :
    s.Retains (Wake.holdUndeliverable m config rows s).1 := by
  induction rows generalizing s with
  | nil => exact refl s
  | cons row rows ih =>
    simp only [Wake.holdUndeliverable]
    split
    · exact (setRows _ _ _ _).trans (ih _)
    · exact refl s

lemma claim (m : Machine) (config : Config) (s : Store) : s.Retains (Wake.claim m config s) := by
  have h := holdUndeliverable m config s.pending s
  simp only [Wake.claim]
  split_ifs
  · cases hc : Wake.holdUndeliverable m config s.pending s with
    | mk s' row =>
      rw [hc] at h
      cases row with
      | none => exact h
      | some row => exact h.trans (of_messages rfl)
  · exact refl s

end Store.Retains

theorem retains_step (op : Op) (w : World) : w.store.Retains (apply op w).store := by
  cases op with
  | look what => exact .refl _
  | outside m => exact .refl _
  | key op => exact .of_messages rfl
  | sending op => exact .of_messages (apply_sending_messages op w)
  | restart => exact (Store.Retains.setRows _ _ _ _).trans (.of_messages rfl)
  | inbox op =>
    cases op with
    | accept peer id body mode hops => exact fun key r h => ⟨r,Table.find_insert_of_some h,rfl⟩
    | readAck => exact .acknowledge _ _
    | readAckFrom peer => exact .acknowledge _ _
    | ackById peer id => exact .acknowledge _ _
    | setStatus peer id outcome detail => exact .setRows _ _ _ _
    | offer config notice => exact .offer _ _ _ _
    | claimForwarding peer id =>
      simp only [apply,Op.apply,InboxOp.apply,Store.claimForwarding]
      split_ifs
      · exact (Store.Retains.markRows _ _ _).trans (.of_messages rfl)
      · exact .refl _
    | claimWake config => exact .claim _ _ _

end PeerChat
