import PeerChat.Dispatch.Judged
import PeerChat.Inbox.Content
import PeerChat.System.Listening

/-! Every message says why it is where it is. The detail of a row agrees with its status in every
state of every run; in particular a message is held for a reason that the status command knows, and for
its hops only where there are too many of them. -/
namespace PeerChat
open Python Relational Wire Interleaving

/-- The reasons that `message_status` reports. -/
inductive HoldReason
  | hopLimit
  | peerNotEnrolled
  | held
  deriving DecidableEq

/-- `{...}.get(detail, 'held')` -/
def holdReasonOf (detail : Str) : HoldReason :=
  if detail = str "Hop limit reached" ∨ detail = str "Hop limit reached; available through read" then
    .hopLimit
  else if detail = str "Peer no longer enrolled" ∨
      detail = str "Message belongs to a previously enrolled peer" then .peerNotEnrolled
  else .held

/-- Does the detail of a row agree with its status? -/
def Accounted (r : MessageRow) : Prop :=
  match r.status with
  | .received | .forwarding => r.detail = []
  | .hookOffered => r.detail = HOOK_PENDING_DETAIL
  | .consumed => r.detail = ACK_DETAIL
  | .held => holdReasonOf r.detail = .peerNotEnrolled ∨
      holdReasonOf r.detail = .hopLimit ∧ HOP_LIMIT ≤ r.hops.length
  | .queued | .queueFailed | .queueUncertain => r.detail ≠ []

/-- So does that of every row. -/
def Store.Accounting (s : Store) : Prop :=
  ∀ key r, s.messages.find key = some r → Accounted r

/-- A row with this status and detail. -/
abbrev MessageRow.moved (r : MessageRow) (status : Status) (detail : Str) : MessageRow :=
  { r with status := status, detail := detail }

lemma accounted_peer {r : MessageRow} {detail : Str} (h : holdReasonOf detail = .peerNotEnrolled) :
    Accounted (r.moved .held detail) := Or.inl h

lemma accounted_hops {r : MessageRow} {detail : Str} (h : holdReasonOf detail = .hopLimit)
    (hhops : HOP_LIMIT ≤ r.hops.length) : Accounted (r.moved .held detail) := Or.inr ⟨h,hhops⟩

/-- The hook's and the wake's reasons. -/
lemma accounted_holdReason {m : Machine} {config : Config} {row r : MessageRow} {reason : Str}
    (h : holdReason m config row = some reason) (hhops : r.hops = row.hops) :
    Accounted (r.moved .held reason) := by
  unfold holdReason at h
  split_ifs at h with hpeer hlimit
  · cases h
    refine accounted_hops (by decide) ?_
    rw [hhops]
    exact hlimit
  · cases h
    exact accounted_peer (by decide)

/-! One transaction. -/

namespace Store.Accounting
variable {s : Store}

lemma of_messages {s' : Store} (h : s.Accounting) (heq : s'.messages = s.messages) :
    s'.Accounting := by
  intro key r hr
  rw [heq] at hr
  exact h key r hr

lemma setRows {p : MessageRow → Bool} {status : Status} {detail : Str} (h : s.Accounting)
    (hmoved : ∀ key r, s.messages.find key = some r → p r = true →
      Accounted (r.moved status detail)) : (s.setRows p status detail).Accounting := by
  intro key r hr
  rw [Store.find_setRows] at hr
  obtain ⟨r₀,hr₀,rfl⟩ := Option.map_eq_some_iff.mp hr
  split_ifs with hp
  · exact hmoved key r₀ hr₀ hp
  · exact h key r₀ hr₀

/-- An acknowledgement, whichever rows it selects. -/
lemma acknowledge (h : s.Accounting) (p : MessageRow → Bool) :
    (s.setRows p .consumed ACK_DETAIL).clearConsumedWake.Accounting := by
  have hset : (s.setRows p .consumed ACK_DETAIL).Accounting := h.setRows fun _ _ _ _ => rfl
  exact of_messages hset (clearConsumedWake_messages _)

/-- The loop of the offering transaction. Its rows are those that it has begun with. -/
lemma offerRows {m : Machine} {config : Config} {rows : List MessageRow} {b b' : Batch}
    (hrun : offerRows m config rows b = .ok b') (h : b.store.Accounting)
    (hrows : ∀ row ∈ rows, b.store.messages.find row.key = some row ∨
      ∃ r, b.store.messages.find row.key = some r ∧ r.hops = row.hops) : b'.store.Accounting := by
  induction rows generalizing b with
  | nil =>
    cases hrun
    exact h
  | cons row rows ih =>
    -- what an update of the first row leaves to the others
    have hrest : ∀ status detail, ∀ other ∈ rows,
        (b.store.setRows (isRow row) status detail).messages.find other.key = some other ∨
        ∃ r, (b.store.setRows (isRow row) status detail).messages.find other.key = some r ∧
          r.hops = other.hops := by
      intro status detail other hother
      right
      have hfound : ∃ r, b.store.messages.find other.key = some r ∧ r.hops = other.hops := by
        obtain hsame | hfound := hrows other (List.mem_cons_of_mem _ hother)
        · exact ⟨other,hsame,rfl⟩
        · exact hfound
      obtain ⟨r,hr,hhops⟩ := hfound
      obtain ⟨r',hr',hcontent⟩ := Retains.setRows b.store (isRow row) status detail _ r hr
      exact ⟨r',hr',(congrArg (·.2.2.1) hcontent).trans hhops⟩
    have hmine : ∀ key r, b.store.messages.find key = some r → isRow row r = true →
        r.hops = row.hops := by
      intro key r hr hisrow
      have hkey : row.key = key := by
        rw [← (Table.find_some hr).2]
        exact ((isRow_iff row r).mp hisrow).symm
      obtain hsame | ⟨r',hr',hhops⟩ := hrows row (List.mem_cons_self ..)
      · rw [hkey,hr] at hsame
        cases hsame
        rfl
      · rw [hkey,hr] at hr'
        cases hr'
        exact hhops
    obtain rfl | ⟨reason,hreason,hrun⟩ | ⟨remaining,text,-,-,-,-,hrun⟩ := offerRows_cons hrun
    · exact h
    · exact ih hrun (h.setRows fun key r hr hp => accounted_holdReason hreason (hmine key r hr hp))
        (hrest _ _)
    · exact ih hrun (h.setRows fun _ _ _ _ => rfl) (hrest _ _)

lemma offer (m : Machine) (config : Config) (notice : Str) (h : s.Accounting) :
    (offer m config notice s).Accounting := by
  simp only [PeerChat.offer]
  split
  · rename_i b hb
    obtain ⟨-,pieces,hrun⟩ := offerBatch_some hb
    refine (offerRows hrun h fun row hrow => Or.inl ?_).of_messages rfl
    exact (mem_select.mp ((List.take_sublist ..).subset hrow)).1
  · exact h

/-- The loop of the wake claim. -/
lemma holdUndeliverable {m : Machine} {config : Config} {rows : List MessageRow} (h : s.Accounting)
    (hrows : ∀ row ∈ rows, ∃ r, s.messages.find row.key = some r ∧ r.hops = row.hops) :
    (Wake.holdUndeliverable m config rows s).1.Accounting := by
  induction rows generalizing s with
  | nil => exact h
  | cons row rows ih =>
    simp only [Wake.holdUndeliverable]
    split
    · rename_i reason hreason
      refine ih (h.setRows fun key r hr hp => accounted_holdReason hreason ?_) ?_
      · rw [Bool.and_eq_true] at hp
        obtain ⟨r',hr',hhops⟩ := hrows row (List.mem_cons_self ..)
        have hkey : row.key = key := by
          rw [← (Table.find_some hr).2]
          exact ((isRow_iff row r).mp hp.1).symm
        rw [hkey,hr] at hr'
        cases hr'
        exact hhops
      · intro other hother
        obtain ⟨r,hr,hhops⟩ := hrows other (List.mem_cons_of_mem _ hother)
        obtain ⟨r',hr',hcontent⟩ := Retains.setRows s
          (fun r => isRow row r && r.status = .received) .held reason _ r hr
        exact ⟨r',hr',(congrArg (·.2.2.1) hcontent).trans hhops⟩
    · exact h

lemma claim (m : Machine) (config : Config) (h : s.Accounting) :
    (Wake.claim m config s).Accounting := by
  have hheld : (Wake.holdUndeliverable m config s.pending s).1.Accounting :=
    h.holdUndeliverable fun row hrow => ⟨row,(mem_select.mp hrow).1,rfl⟩
  simp only [Wake.claim]
  split_ifs
  · cases hc : Wake.holdUndeliverable m config s.pending s with
    | mk s' row =>
      rw [hc] at hheld
      cases row with
      | none => exact hheld
      | some row => exact hheld.of_messages rfl
  · exact h

lemma claimForwarding (peer id : Str) (h : s.Accounting) : (s.claimForwarding peer id).Accounting := by
  simp only [Store.claimForwarding]
  split_ifs
  · intro key r hr
    rw [Store.setKeys_messages,Store.find_markRows] at hr
    obtain ⟨r₀,hr₀,rfl⟩ := Option.map_eq_some_iff.mp hr
    have hold := h key r₀ hr₀
    split_ifs with hp
    · -- a row that is new has no detail yet, and keeps none
      simp only [Bool.and_eq_true,decide_eq_true_eq] at hp
      unfold Accounted at hold
      rw [hp.2] at hold
      exact hold
    · exact hold
  · exact h

lemma restart (h : s.Accounting) : s.restart.Accounting := by
  refine Store.Accounting.of_messages (h.setRows fun _ _ _ _ => ?_) rfl
  change str _ ≠ []
  decide

lemma acceptMessage (now : Time) (peer id body : Str) (mode : Mode) (hops : List Str)
    (h : s.Accounting) : (s.acceptMessage now peer id body mode hops).Accounting := by
  intro key r hr
  change (s.messages.insert _).find key = some r at hr
  rw [Table.find_insert] at hr
  cases hf : s.messages.find key with
  | some r₀ =>
    rw [hf] at hr
    have hsame : r₀ = r := by split_ifs at hr <;> exact Option.some.inj hr
    exact hsame ▸ h key r₀ hf
  | none =>
    rw [hf] at hr
    split_ifs at hr
    cases hr
    rfl

end Store.Accounting

/-! The queue mode decides outside of its transaction. -/

/-- What a process may set: a status and a detail that agree for the row that is there. -/
def Explains (w : World) : Op → Prop
  | .inbox (.setStatus peer id outcome detail) => ∀ r, w.store.messages.find (peer,id) = some r →
      Accounted (r.moved outcome.toStatus detail)
  | _ => True

lemma Explains.step {w : World} {op : Op} (hg : Explains w op) (h : w.store.Accounting) :
    (apply op w).store.Accounting := by
  cases op with
  | sending op => exact h.of_messages (apply_sending_messages op w)
  | restart => exact h.restart
  | inbox op =>
    cases op with
    | accept peer id body mode hops => exact h.acceptMessage w.machine.now peer id body mode hops
    | readAck => exact h.acknowledge _
    | readAckFrom peer => exact h.acknowledge _
    | ackById peer id => exact h.acknowledge _
    | offer config notice => exact h.offer w.machine config notice
    | claimForwarding peer id => exact h.claimForwarding peer id
    | claimWake config => exact h.claim w.machine config
    | setStatus peer id outcome detail =>
      refine h.setRows fun key r hr hp => hg r ?_
      simp only [Bool.and_eq_true,decide_eq_true_eq] at hp
      have hkey : key = (peer,id) := by
        rw [← (Table.find_some hr).2,MessageRow.key,hp.1.1,hp.1.2]
      rw [← hkey]
      exact hr
  | _ => exact h

/-- An access that sets no status by itself. -/
def Op.sets : Op → Bool
  | .inbox (.setStatus ..) => true
  | _ => false

lemma explains_of_sets {w : World} {op : Op} (h : op.sets = false) : Explains w op := by
  unfold Explains
  split
  · cases h
  · trivial

/-- From states where `P` holds, the program sets only what agrees. -/
abbrev Explaining {α : Type} (P : World → Prop) (p : Code α) : Prop :=
  Sat (fun w => w.store.Accounting) (fun _ _ => True) Explains P p fun _ _ => True

lemma explaining_of_sets {α : Type} {P : World → Prop} {p : Code α}
    (h : p.Emits fun l => l.sets = false) : Explaining P p :=
  (Sat.of_emits h fun _ _ _ hl => explains_of_sets hl).mono fun _ _ => trivial

/-- The row, or what has become of it, is in the inbox. -/
def Stored (row : MessageRow) (w : World) : Prop :=
  ∃ r, w.store.messages.find row.key = some r ∧ r.hops = row.hops

lemma stable_stored {I : World → Prop} {R : World → Op → Prop} (row : MessageRow) :
    Stable I R (Stored row) := by
  intro w op _ _ h
  obtain ⟨r,hr,hhops⟩ := h
  obtain ⟨r',hr',hcontent⟩ := retains_step op w row.key r hr
  exact ⟨r',hr',(congrArg (·.2.2.1) hcontent).trans hhops⟩

/-- The details of the queue call. -/
lemma forwardOutcome_detail {m : Machine} {config : Config} {row r : MessageRow}
    {outcome : Store.Outcome} {detail : Str}
    (h : forwardOutcome m config row = some (outcome,detail)) :
    Accounted (r.moved outcome.toStatus detail) := by
  have hdetail : detail ≠ [] := by
    have huncertain : ∀ exc : Exc, exc.name ++ str "; no automatic retry" ≠ [] := by
      intro exc hnil
      exact absurd (List.append_eq_nil_iff.mp hnil).2 (by decide)
    have hid : ∀ stdout, (queuedMessageId stdout).getD
        (str "CLI acknowledged; consumption unconfirmed") ≠ [] := by
      intro stdout
      cases hq : queuedMessageId stdout with
      | none => decide
      | some id =>
        unfold queuedMessageId at hq
        obtain ⟨s,-,hs⟩ := List.exists_of_findSome?_eq_some hq
        dsimp only at hs
        split_ifs at hs with hmatch
        cases hs
        refine List.ne_nil_of_length_pos ?_
        rw [Option.getD_some,hmatch.2.1]
        decide
    simp only [forwardOutcome] at h
    repeat' split at h
    all_goals simp only [Option.some.injEq,Prod.mk.injEq,reduceCtorEq] at h
    all_goals obtain ⟨-,rfl⟩ := h
    · exact huncertain _
    · exact huncertain _
    · exact huncertain _
    · exact huncertain _
    · intro hnil
      exact absurd (List.append_eq_nil_iff.mp hnil).1 (by decide)
    · exact hid _
  have hheld := forwardOutcome_ne_held h
  cases outcome with
  | held => exact absurd rfl hheld
  | _ => exact hdetail

lemma forward_explaining (config : Config) (row : MessageRow) :
    Explaining (Stored row) (forward config row) := by
  intro w _ hrow
  refine ⟨trivial,_,stable_stored row,hrow,?_⟩
  simp only [Prog.bind]
  -- the update of the row with a text that agrees
  have hset : ∀ outcome detail, (∀ r : MessageRow, r.hops = row.hops →
      Accounted (r.moved (Store.Outcome.toStatus outcome) detail)) → Explaining (Stored row)
        (.act (.inbox (.setStatus row.peer row.id outcome detail)) fun _ => .ret true) := by
    intro outcome detail h w _ hrow
    refine ⟨fun r hr => ?_,_,stable_true,trivial,fun _ _ => trivial⟩
    obtain ⟨r',hr',hhops⟩ := hrow
    cases hr'.symm.trans hr
    exact h r hhops
  split_ifs with henrolled hhops
  · refine hset _ _ fun r hr => accounted_hops (by decide) ?_
    rw [hr]
    exact hhops
  · intro w₁ _ h₁
    refine ⟨trivial,_,stable_stored row,stable_stored (I := fun _ => True) (R := fun _ _ => True)
      row w₁ _ trivial trivial h₁,?_⟩
    simp only [Prog.bind]
    split_ifs
    · intro w₂ _ h₂
      refine ⟨trivial,_,stable_stored row,h₂,?_⟩
      simp only [Prog.bind]
      split
      · exact fun _ _ => trivial
      · rename_i outcome detail hout
        exact hset _ _ fun r _ => forwardOutcome_detail hout
    · exact fun _ _ => trivial
  · exact hset _ _ fun r _ => accounted_peer (by decide)

lemma wakeIdle_sets (config : Config) : (wakeIdle config).Emits fun l => l.sets = false := by
  refine ⟨rfl,fun w => ?_⟩
  simp only [Prog.bind]
  split
  · trivial
  · refine ⟨rfl,fun _ => ⟨rfl,fun w₁ => ?_⟩⟩
    simp only [Prog.bind]
    split
    · trivial
    · exact ⟨rfl,fun _ => trivial⟩

lemma dispatchInbox_explaining (config : Config) :
    Explaining (fun _ => True) (dispatchInbox config) := by
  intro w₁ _ _
  refine ⟨trivial,_,stable_true,trivial,?_⟩
  simp only [Prog.bind]
  split_ifs
  · exact fun _ _ => trivial
  · intro w₂ _ _
    refine ⟨trivial,_,stable_true,trivial,?_⟩
    simp only [Prog.bind]
    split_ifs
    · exact explaining_of_sets (wakeIdle_sets config)
    · intro w₃ _ _
      refine ⟨trivial,_,stable_true,trivial,?_⟩
      simp only [Prog.bind]
      split_ifs
      · exact fun _ _ => trivial
      · intro w₄ _ _
        refine ⟨trivial,_,stable_true,trivial,?_⟩
        simp only [Prog.bind]
        split_ifs
        · intro w₅ _ _
          cases hp : w₅.store.pending with
          | nil =>
            refine ⟨trivial,_,stable_true,trivial,?_⟩
            simp only [Prog.bind,hp]
            exact fun _ _ => trivial
          | cons row rows =>
            have hmem : row ∈ w₅.store.pending := by
              rw [hp]
              exact List.mem_cons_self ..
            refine ⟨trivial,Stored row,stable_stored row,
              ⟨row,(Store.mem_select.mp hmem).1,rfl⟩,?_⟩
            simp only [Prog.bind,hp]
            exact forward_explaining config row
        · exact fun _ _ => trivial

lemma dispatch_explaining (U : Interp) (config : Config) :
    Explaining (fun _ => True) (dispatch U config) := by
  intro w _ _
  refine ⟨trivial,_,stable_true,trivial,?_⟩
  simp only [Prog.bind]
  split
  · exact explaining_of_sets (dispatchOutgoing_emits (P := fun l => l.sets = false) (fun _ _ => rfl) U
      config _ rfl (fun _ => rfl) fun _ _ => rfl)
  · exact dispatchInbox_explaining config

lemma serve_explaining (U : Interp) (pid : Pid) (passes : List Bool) :
    Explaining (fun _ => True) (serve U pid passes) := by
  refine serve_sat ?_ U (dispatch_explaining U) pid passes
  intro l w _ hl
  cases l with
  | inbox op => exact hl.elim
  | _ => trivial

lemma sets_of_made {ρ : Rights} (hl : ρ.listener = false) {l : Op} (h : Made ρ l) :
    l.sets = false := by
  unfold Op.sets
  split
  · cases hl.symm.trans h
  · rfl

theorem Process.code_explaining (U : Interp) (p : Process) :
    Explaining (fun _ => True) (p.code U) := by
  have hmade : p.rights.listener = false → Explaining (fun _ => True) (p.code U) :=
    fun hl => explaining_of_sets ((p.code_made U).imp fun _ => sets_of_made hl)
  cases p with
  | serve pid passes => exact serve_explaining U pid passes
  | accept peer frame => cases frame <;> exact hmade rfl
  | _ => exact hmade rfl

/-- In every state of a run from a new database, the detail of each message agrees with its status. -/
theorem details_kept (U : Interp) (honest : Bool) (m : Machine) (es : Schedule) :
    ((bridge U honest).final (.idle (.new m)) es).state.store.Accounting ∧
      ∀ t ∈ (bridge U honest).trace (.idle (.new m)) es, t.pre.store.Accounting := by
  have hS : (bridge U honest).Sound (fun w => w.store.Accounting) (fun _ _ _ => True)
      fun _ => Explains :=
    { start := fun p w _ _ => ⟨fun _ => True,stable_true,trivial,p.code_explaining U⟩
      compat := fun _ _ _ _ _ _ _ => trivial
      outside := fun _ _ _ _ _ => trivial
      invariant := fun _ w op h hg => hg.step h
      invariant_outside := fun w op h hout => by
        cases op with
        | outside m => exact h
        | _ => cases hout }
  have hnew : (World.new m).store.Accounting := by
    intro key r hr
    cases hr
  obtain ⟨hfinal,htrace⟩ := hS.trace_fair es (Pool.idle_safe hnew)
  exact ⟨hfinal.1,fun t ht => (htrace t ht).1⟩

end PeerChat
