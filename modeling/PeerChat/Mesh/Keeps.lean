import PeerChat.Dispatch.SentSteps
import PeerChat.Inbox.Content
import PeerChat.Interleaving.Only
import PeerChat.Mesh.Session
import PeerChat.System.Frame
import PeerChat.System.Listening

/-! What one session of a mesh keeps: where its messages, its outgoing rows and its frames come from,
and which hops a frame continues. -/
namespace PeerChat.Mesh
open Python Relational Wire Interleaving

/-- The destination of an outgoing row. -/
def addressee (s : Store) (id : Str) : Option (Option Str) := (s.outgoing.find id).map (·.peer)

lemma addressee_update (s : Store) (p : OutgoingRow → Bool) (f : OutgoingRow → OutgoingRow)
    (hf : ∀ r, (f r).id = r.id) (hpeer : ∀ r, (f r).peer = r.peer) (id : Str) :
    ((s.outgoing.update p f hf).find id).map (·.peer) = addressee s id := by
  unfold addressee
  rw [Table.find_update,Option.map_map]
  congr 1
  funext r
  simp only [Function.comp_apply]
  split_ifs
  · exact hpeer r
  · rfl

lemma addressee_setSent (s : Store) (p : OutgoingRow → Bool) (status : SentStatus) (detail : Str)
    (id : Str) : addressee (s.setSent p status detail) id = addressee s id :=
  addressee_update s p (fun r => { r with status := status, detail := detail }) (fun _ => rfl)
    (fun _ => rfl) id

lemma addressee_markWriting (s : Store) (mid id : Str) :
    addressee (s.markWriting mid) id = addressee s id :=
  addressee_update s (fun r => r.id = mid) (fun r => { r with status := .writing }) (fun _ => rfl)
    (fun _ => rfl) id

/-- Only the insertion of a row gives an id a destination, and then it stays. -/
lemma addressee_step (op : Op) (w : World) (id : Str) :
    addressee (apply op w).store id = addressee w.store id ∨
      addressee w.store id = none ∧ ∃ body peer, op = .sending (.enqueue id body peer) ∧
        addressee (apply op w).store id = some (some peer) := by
  cases op with
  | inbox op =>
    left
    unfold addressee
    rw [apply_inbox_outgoing]
  | restart => exact Or.inl (addressee_setSent _ _ _ _ id)
  | sending op =>
    cases op with
    | enqueue mid body peer =>
      have hpost : addressee (apply (Op.sending (.enqueue mid body peer)) w).store id =
          if id = mid then some (((w.store.outgoing.find id).map (·.peer)).getD (some peer))
          else addressee w.store id := by
        change ((w.store.outgoing.insert _).find id).map _ = _
        rw [Table.find_insert]
        by_cases he : id = mid
        · rw [if_pos he,if_pos he]
          cases w.store.outgoing.find id <;> rfl
        · rw [if_neg he,if_neg he]
          rfl
      rw [hpost]
      by_cases he : id = mid
      · subst he
        rw [if_pos rfl]
        cases hf : addressee w.store id with
        | none =>
          unfold addressee at hf
          rw [hf]
          exact Or.inr ⟨rfl,body,peer,rfl,rfl⟩
        | some found =>
          unfold addressee at hf
          rw [hf]
          exact Or.inl rfl
      · rw [if_neg he]
        exact Or.inl rfl
    | markWriting mid => exact Or.inl (addressee_markWriting _ mid id)
    | sendFrame mid data => exact Or.inl rfl
    | finish mid ending detail => exact Or.inl (addressee_setSent _ _ _ _ id)
    | acceptReceipt peer mid body => exact Or.inl (addressee_setSent _ _ _ _ id)
  | _ => exact Or.inl rfl

/-- A stored message was there before with the same hops, or has just been accepted. -/
lemma stored_step {op : Op} {w : World} {key : Str × Str} {row : MessageRow}
    (h : (apply op w).store.messages.find key = some row) :
    (∃ r, w.store.messages.find key = some r ∧ r.hops = row.hops) ∨
      ∃ body mode, op = .inbox (.accept key.1 key.2 body mode row.hops) := by
  cases hf : w.store.messages.find key with
  | some r =>
    obtain ⟨r',hr',hcontent⟩ := retains_step op w key r hf
    rw [h] at hr'
    cases hr'
    exact Or.inl ⟨r,rfl,(congrArg (·.2.2.1) hcontent).symm⟩
  | none =>
    obtain ⟨body,mode,hop,-⟩ := accepted_of_new hf h
    exact Or.inr ⟨body,mode,hop⟩

/-- What of a world stays: its messages with their hops, the replies, the destinations and what has
been written. -/
structure Grows (w w' : World) : Prop where
  messages : w.store.Retains w'.store
  replies : ∀ p ∈ w.store.keys.replyTo, p ∈ w'.store.keys.replyTo
  addressees : ∀ id peer, addressee w.store id = some peer → addressee w'.store id = some peer
  wire : ∀ e ∈ w.wire, e ∈ w'.wire

lemma Grows.trans {w w' w'' : World} (h : Grows w w') (h' : Grows w' w'') : Grows w w'' :=
  ⟨h.messages.trans h'.messages,fun p hp => h'.replies p (h.replies p hp),
    fun id peer hp => h'.addressees id peer (h.addressees id peer hp),
    fun e he => h'.wire e (h.wire e he)⟩

lemma Grows.refl (w : World) : Grows w w :=
  ⟨.refl _,fun _ h => h,fun _ _ h => h,fun _ h => h⟩

/-- The replies after an access. -/
lemma replies_step (op : Op) (w : World) :
    (apply op w).store.keys.replyTo = w.store.keys.replyTo ∨ ∃ id replied,
      op = .key (.putReplyTo id replied) ∧
        (apply op w).store.keys.replyTo = w.store.keys.replyTo ++ [(id,replied)] := by
  by_cases h : MetaKey.replyTo ∈ op.writes
  · right
    cases op with
    | key op =>
      cases op with
      | putReplyTo id replied => exact ⟨id,replied,rfl,rfl⟩
      | putBudget key value => cases key <;> simp [Op.writes,KeyOp.writes,BudgetKey.metaKey] at h
      | configureDelivery mode budget =>
        cases budget <;> simp [Op.writes,KeyOp.writes,windowKeys] at h
      | _ => simp [Op.writes,KeyOp.writes,wakeKeys] at h
    | inbox op => cases op <;> simp [Op.writes] at h
    | _ => simp [Op.writes] at h
  · exact Or.inl (apply_frame op w h)

lemma grows_step (op : Op) (w : World) : Grows w (apply op w) where
  messages := retains_step op w
  replies p hp := by
    obtain h | ⟨id,replied,-,h⟩ := replies_step op w
    · rw [h]
      exact hp
    · rw [h]
      exact List.mem_append_left _ hp
  addressees id peer hp := by
    obtain h | ⟨hnone,-⟩ := addressee_step op w id
    · rw [h]
      exact hp
    · cases hnone.symm.trans hp
  wire e he := by
    cases op with
    | sending op =>
      cases op with
      | sendFrame mid data => exact List.mem_append_left _ he
      | _ => exact he
    | _ => exact he

/-- So does every part of a run. -/
lemma grows_final (U : Interp) (honest : Bool) (c : Pool World Op) (es : Schedule) :
    Grows c.state ((bridge U honest).final c es).state := by
  obtain ⟨ls,-,hfinal⟩ := (bridge U honest).exists_labels c es
  rw [hfinal]
  exact after_induction (.refl _) fun op _ w h => h.trans (grows_step op w)

/-- So does what is left of it from one of its accesses. -/
lemma grows_from {U : Interp} {honest : Bool} {c : Pool World Op} {es : Schedule}
    {t : Step World Op} (ht : t ∈ (bridge U honest).trace c es) :
    Grows t.pre ((bridge U honest).final c es).state := by
  obtain ⟨front,back,hcut⟩ := List.append_of_mem ht
  obtain ⟨ms,-,hfinal⟩ := System.trace_cut hcut
  rw [hfinal]
  exact (grows_step t.label t.pre).trans <|
    after_induction (.refl _) fun op _ w h => h.trans (grows_step op w)

/-- An assertion that lasts as the world grows is stable. -/
lemma stable_of_grows {I : World → Prop} {R : World → Op → Prop} {P : World → Prop}
    (h : ∀ w w', Grows w w' → P w → P w') : Stable I R P :=
  fun w op _ _ hP => h w _ (grows_step op w) hP

/-! The invariant. -/

section
variable (U : Interp) (K : Str → Prop) (es : Schedule)

/-- The row of a message that has been sent; a reply goes where the message it replies to has come
from. -/
def Queued (w : World) (id : Str) (peer : Option Str) : Prop :=
  ∃ args, Starts es (.send args) ∧ args.id.text = id ∧ ∀ replied, args.replyTo = some replied →
    (id,replied) ∈ w.store.keys.replyTo ∧ ∃ key row, peer = some key ∧
      w.store.messages.find (key,replied) = some row

/-- The hops with which the dispatcher goes on for a row: none for a message that is no reply, and
otherwise those of the message it replies to. -/
def Continues (w : World) (id : Str) (peer : Option Str) (hops : List Str) : Prop :=
  ∃ args, Starts es (.send args) ∧ args.id.text = id ∧ (args.replyTo = none → hops = []) ∧
    ∀ key replied, peer = some key → key ≠ [] → args.replyTo = some replied → replied ≠ [] →
      ∃ row, w.store.messages.find (key,replied) = some row ∧ row.hops = hops

/-- A frame that has been written for a row. -/
def Written (w : World) (id : Str) (data : Bytes) : Prop :=
  ∃ m config peer body hops target to', addressee w.store id = some to' ∧
    outbound U m config peer body id hops false = .ok (target,data) ∧
    (∀ key, to' = some key → K key → peer.kind = some .codex) ∧ Continues es w id to' hops

/-- What every state of the session keeps. -/
structure Kept (w : World) : Prop where
  config : ∀ config, w.store.keys.config = some config → LinkedTable K config.toPeerTable
  replies : ∀ id replied, (id,replied) ∈ w.store.keys.replyTo →
    ∃ args, Starts es (.send args) ∧ args.id.text = id ∧ args.replyTo = some replied
  queued : ∀ id peer, addressee w.store id = some peer → Queued es w id peer
  stored : ∀ key row, w.store.messages.find key = some row →
    ∃ body mode, Starts es (.accept key.1 (.message key.2 body mode row.hops))
  written : ∀ e ∈ w.wire, Written U K es w e.1 e.2

/-- What its processes do to that. -/
def Guarantee (w : World) : Op → Prop
  | .inbox (.accept peer id body mode hops) => Starts es (.accept peer (.message id body mode hops))
  | .sending (.enqueue id _ peer) => Queued es w id (some peer)
  | .sending (.sendFrame id data) => Written U K es w id data
  | .sending (.finish id .written _) => ∃ e ∈ w.wire, e.1 = id
  | .key (.putReplyTo id replied) =>
    ∃ args, Starts es (.send args) ∧ args.id.text = id ∧ args.replyTo = some replied
  | .key (.putConfig config) => LinkedTable K config.toPeerTable
  | .key (.enroll _ record) => LinkedRecord K record
  | .key (.stopBridge (some config)) => LinkedTable K config.toPeerTable
  | _ => True

variable {U K es} {w w' : World} {id : Str} {peer : Option Str}

lemma Queued.grows (h : Queued es w id peer) (hg : Grows w w') : Queued es w' id peer := by
  obtain ⟨args,hargs,hid,h⟩ := h
  refine ⟨args,hargs,hid,fun replied hr => ?_⟩
  obtain ⟨hmem,key,row,hkey,hrow⟩ := h replied hr
  obtain ⟨row',hrow',-⟩ := hg.messages _ row hrow
  exact ⟨hg.replies _ hmem,key,row',hkey,hrow'⟩

lemma Continues.grows {hops : List Str} (h : Continues es w id peer hops) (hg : Grows w w') :
    Continues es w' id peer hops := by
  obtain ⟨args,hargs,hid,hnone,h⟩ := h
  refine ⟨args,hargs,hid,hnone,fun key replied hkey hne hr hne' => ?_⟩
  obtain ⟨row,hrow,hhops⟩ := h key replied hkey hne hr hne'
  obtain ⟨row',hrow',hcontent⟩ := hg.messages _ row hrow
  exact ⟨row',hrow',(congrArg (·.2.2.1) hcontent).trans hhops⟩

lemma Written.grows {data : Bytes} (h : Written U K es w id data) (hg : Grows w w') :
    Written U K es w' id data := by
  obtain ⟨m,config,peer,body,hops,target,to',hto,hout,hkind,hc⟩ := h
  exact ⟨m,config,peer,body,hops,target,to',hg.addressees id to' hto,hout,hkind,hc.grows hg⟩

/-- The configuration after an access that is guaranteed. -/
lemma Kept.config_step (h : Kept U K es w) {op : Op} (hg : Guarantee U K es w op) (config : Config)
    (hc : (apply op w).store.keys.config = some config) : LinkedTable K config.toPeerTable := by
  by_cases hw : MetaKey.config ∈ op.writes
  · cases op with
    | key op =>
      rw [apply_key_keys] at hc
      cases op with
      | putConfig c =>
        cases hc
        exact hg
      | enroll key record =>
        obtain ⟨c,hc₀,rfl⟩ := Option.map_eq_some_iff.mp hc
        exact (h.config c hc₀).enrollTable hg
      | setDefaultPeer key =>
        obtain ⟨c,hc₀,rfl⟩ := Option.map_eq_some_iff.mp hc
        exact h.config c hc₀
      | setSupervision =>
        simp only [KeyOp.apply,setSupervision] at hc
        split_ifs at hc
        · exact h.config config hc
        · obtain ⟨c,hc₀,rfl⟩ := Option.map_eq_some_iff.mp hc
          exact h.config c hc₀
      | stopBridge read =>
        cases read with
        | none => exact h.config config hc
        | some c =>
          obtain ⟨-,-,rfl⟩ := Option.map_eq_some_iff.mp hc
          exact hg
      | putBudget key value => cases key <;> simp [Op.writes,KeyOp.writes,BudgetKey.metaKey] at hw
      | configureDelivery mode budget =>
        cases budget <;> simp [Op.writes,KeyOp.writes,windowKeys] at hw
      | _ => simp [Op.writes,KeyOp.writes,wakeKeys] at hw
    | inbox op => cases op <;> simp [Op.writes] at hw
    | _ => simp [Op.writes] at hw
  · have hframe : (apply op w).store.keys.config = w.store.keys.config := apply_frame op w hw
    exact h.config config (hframe.symm.trans hc)

/-- A new database has no rows, no replies and no configuration. -/
lemma kept_new (m : Machine) : Kept U K es (.new m) where
  config _ h := by cases h
  replies _ _ h := by cases h
  queued _ _ h := by cases h
  stored _ _ h := by cases h
  written _ h := by cases h

/-- Every guaranteed access keeps the invariant. -/
lemma Kept.step (h : Kept U K es w) {op : Op} (hg : Guarantee U K es w op) :
    Kept U K es (apply op w) where
  config config hc := h.config_step hg config hc
  replies id replied hr := by
    obtain he | ⟨mid,target,rfl,he⟩ := replies_step op w
    · rw [he] at hr
      exact h.replies id replied hr
    · rw [he,List.mem_append,List.mem_singleton] at hr
      obtain hr | hr := hr
      · exact h.replies id replied hr
      · cases hr
        exact hg
  queued id peer hp := by
    obtain he | ⟨-,body,to',rfl,he⟩ := addressee_step op w id
    · exact (h.queued id peer (he.symm.trans hp)).grows (grows_step op w)
    · cases he.symm.trans hp
      exact Queued.grows hg (grows_step _ w)
  stored key row hrow := by
    obtain ⟨r,hr,hhops⟩ | ⟨body,mode,rfl⟩ := stored_step hrow
    · exact hhops ▸ h.stored key r hr
    · exact ⟨body,mode,hg⟩
  written e he := by
    have hold : e ∈ w.wire ∨ op = .sending (.sendFrame e.1 e.2) := by
      cases op with
      | sending op =>
        cases op with
        | sendFrame mid data =>
          obtain he | he := List.mem_append.mp he
          · exact Or.inl he
          · rw [List.mem_singleton.mp he]
            exact Or.inr rfl
        | _ => exact Or.inl he
      | _ => exact Or.inl he
    obtain hold | rfl := hold
    · exact (h.written e hold).grows (grows_step op w)
    · exact Written.grows hg (grows_step _ w)

end
end PeerChat.Mesh
