import PeerChat.Dispatch.Judged
import PeerChat.Mesh.Programs

/-! Where the rows that a session sends come from, and what its listener has found out before it
writes a frame. -/
namespace PeerChat.Mesh
open Python Relational Wire Interleaving

/-! Insertions. -/

/-- An insertion is one of the message that the process sends. -/
def Enqueues (p : Process) : Op → Prop
  | .sending (.enqueue id body _) => ∃ args, p = .send args ∧ args.id.text = id ∧ args.body = body
  | _ => True

/-- Anything but the insertion of an outgoing row. -/
def inserts : Op → Bool
  | .sending (.enqueue ..) => true
  | _ => false

lemma enqueues_of_inserts {p : Process} {l : Op} (h : inserts l = false) : Enqueues p l := by
  unfold Enqueues
  split
  · cases h
  · trivial

lemma inserts_of_quiet {l : Op} (h : quiet l = true) : inserts l = false := by
  unfold inserts
  split
  · cases h
  · rfl

/-! The programs. -/

lemma send_enqueues (U : Interp) (args : SendArgs) :
    (send U args).Emits (Enqueues (.send args)) := by
  have hqueue : ∀ target, (enqueueTo args target).Emits (Enqueues (.send args)) := by
    intro target
    cases target with
    | none => trivial
    | some target => exact ⟨⟨args,rfl,rfl,rfl⟩,fun _ => trivial⟩
  refine ⟨trivial,fun w => ?_⟩
  simp only [Prog.bind]
  split_ifs
  · trivial
  · refine ⟨trivial,fun w₁ => ?_⟩
    simp only [Prog.bind]
    split
    · trivial
    · split
      · refine ⟨trivial,fun w₂ => ⟨trivial,fun w₃ => ?_⟩⟩
        simp only [Prog.bind]
        split
        · split_ifs
          · exact ⟨trivial,fun _ => hqueue (some _)⟩
          · trivial
        · trivial
      · exact ⟨trivial,fun w₂ => hqueue _⟩

lemma accept_inserts (peer : Str) (f : Frame) :
    (accept peer f).Emits fun l => inserts l = false := by
  cases f with
  | message mid body mode hops => exact ⟨rfl,fun _ => trivial⟩
  | notice state warning remaining => exact ⟨rfl,fun _ => ⟨rfl,fun _ => trivial⟩⟩
  | receipt mid body =>
    refine ⟨rfl,fun w => ?_⟩
    simp only [Prog.bind]
    split_ifs
    · trivial
    · exact ⟨rfl,fun _ => trivial⟩

section
variable {R : World → Op → Prop}

/-- Of a program that inserts nothing, nothing is asked. -/
lemma enqueues_sat {α : Type} {p : Process} {q : Code α} (h : q.Emits fun l => inserts l = false) :
    Sat (fun _ => True) R (fun _ => Enqueues p) (fun _ => True) q fun _ _ => True :=
  Sat.of_emits h fun _ _ _ hl => enqueues_of_inserts hl

lemma dispatch_inserts (U : Interp) (config : Config) :
    (dispatch U config).Emits fun l => inserts l = false := by
  refine ⟨rfl,fun w => ?_⟩
  simp only [Prog.bind]
  split
  · exact dispatchOutgoing_emits (P := fun l => inserts l = false) (fun _ _ => rfl) U config _ rfl
      (fun _ => rfl) fun _ _ => rfl
  · exact dispatchInbox_emits (P := fun l => inserts l = false) (fun _ _ => rfl) (fun _ _ => rfl)
      (fun _ => rfl) config

lemma serve_enqueues (U : Interp) {p : Process} (pid : Pid) (passes : List Bool) :
    Sat (fun _ => True) R (fun _ => Enqueues p) (fun _ => True) (serve U pid passes)
      fun _ _ => True := by
  refine serve_sat ?_ U (fun config => enqueues_sat (dispatch_inserts U config)) pid passes
  intro l w _ hl
  cases l with
  | sending op => cases hl
  | _ => trivial

theorem code_enqueues (U : Interp) (p : Process) :
    Sat (fun _ => True) R (fun _ => Enqueues p) (fun _ => True) (p.code U) fun _ _ => True := by
  have hquiet : ∀ {α : Type} {q : Code α}, (q.Emits fun l => quiet l = true) →
      (q >>= fun _ => .ret ()).Emits fun l => inserts l = false :=
    fun hq => (hq.imp fun _ => inserts_of_quiet).bind fun _ => trivial
  have hcommand : ∀ {α : Type} {q : Code α}, (q.Emits fun l => l.ofCommand = true) →
      (q >>= fun _ => .ret ()).Emits fun l => inserts l = false :=
    fun hq => hquiet (hq.imp fun _ => quiet_ofCommand)
  cases p with
  | accept peer frame => exact enqueues_sat ((accept_inserts peer frame).bind fun _ => trivial)
  | read ack => exact enqueues_sat (hcommand (readInbox_ofCommand ack))
  | readFrom peer ack => exact enqueues_sat (hcommand (readFrom_ofCommand peer ack))
  | readById selected mid ack => exact enqueues_sat (hcommand (readById_ofCommand selected mid ack))
  | deliver payload =>
    exact enqueues_sat (hquiet ((deliver_ofHook payload).imp fun _ => quiet_ofHook))
  | serve pid passes => exact serve_enqueues U pid passes
  | start args =>
    exact enqueues_sat ((startBridge_emits (P := fun l => inserts l = false) (fun _ => rfl)
      (fun _ => rfl) args).bind fun _ => trivial)
  | restore row args =>
    exact enqueues_sat ((restore_emits (P := fun l => inserts l = false) (fun _ => rfl)
      (fun _ => rfl) row args).bind fun _ => trivial)
  | stop => exact enqueues_sat ⟨rfl,fun _ => emit_emits rfl⟩
  | enableSupervision => exact enqueues_sat (emit_emits rfl)
  | send args => exact (Sat.of_emits (send_enqueues U args) fun _ _ _ h => h).bind fun _ _ _ => trivial
  | configure mode budget => exact enqueues_sat (hcommand (configure_ofCommand mode budget))
  | connectSeed phase => exact enqueues_sat (emit_emits rfl)
  | connectOwn key => exact enqueues_sat ⟨rfl,fun _ => emit_emits rfl⟩

end
/-! What a listener goes by when it writes a frame. -/

/-- The process has selected the row. -/
def Selected (past : List (Step World Op)) (row : OutgoingRow) : Prop :=
  ∃ w, ⟨.look .outgoing,w⟩ ∈ past ∧ w.store.nextPending = some row

/-- The hops are none, or those of a message that the process has found. -/
def FoundHops (past : List (Step World Op)) (hops : List Str) : Prop :=
  hops = [] ∨ ∃ w key row, ⟨.look .inbox,w⟩ ∈ past ∧ w.store.messages.find key = some row ∧
    row.hops = hops

/-- The process has read the configuration. -/
def ReadConfig (past : List (Step World Op)) (config : Config) : Prop :=
  ∃ w, ⟨.look .config,w⟩ ∈ past ∧ w.store.keys.config = some config

/-- The process has prepared a frame for a row that it has selected. -/
def Prepared (U : Interp) (past : List (Step World Op)) (id : Str) (data : Bytes) : Prop :=
  ∃ config w peer row hops target, ReadConfig past config ∧ ⟨.look .machine,w⟩ ∈ past ∧
    Selected past row ∧ row.id = id ∧ FoundHops past hops ∧
    outbound U w.machine config peer row.body id hops false = .ok (target,data)

/-- What the steps that take a row and write it go by. -/
def Sourced (U : Interp) (past : List (Step World Op)) (t : Step World Op) : Prop :=
  match t.label with
  | .sending (.markWriting id) => ∃ row, Selected past row ∧ row.id = id
  | .sending (.sendFrame id data) =>
    Prepared U past id data ∧ ∃ w, ⟨.sending (.markWriting id),w⟩ ∈ past
  | _ => True

/-- An access that neither takes a row nor writes it. -/
def idles : Op → Bool
  | .sending (.markWriting _) | .sending (.sendFrame ..) => false
  | _ => true

section
variable {U : Interp} {past : List (Step World Op)}

lemma sourced_of_idles {t : Step World Op} (h : idles t.label = true) : Sourced U past t := by
  unfold Sourced
  split
  · rename_i heq
    rw [heq] at h
    cases h
  · rename_i heq
    rw [heq] at h
    cases h
  · trivial

lemma traced_of_idles {α : Type} {p : Code α} (h : p.Emits fun l => idles l = true) :
    p.Traced (Sourced U) (fun u _ => past <+: u) past :=
  Prog.Traced.of_emits (K := fun u => past <+: u) h (fun _ _ _ hu hl =>
    ⟨sourced_of_idles hl,hu.trans (List.prefix_append ..)⟩) (List.prefix_refl past)

lemma Selected.mono {row : OutgoingRow} {u : List (Step World Op)} (h : Selected past row)
    (hu : past <+: u) : Selected u row := by
  obtain ⟨w,hw,hrow⟩ := h
  exact ⟨w,hu.subset hw,hrow⟩

lemma ReadConfig.mono {config : Config} {u : List (Step World Op)} (h : ReadConfig past config)
    (hu : past <+: u) : ReadConfig u config := by
  obtain ⟨w,hw,hconfig⟩ := h
  exact ⟨w,hu.subset hw,hconfig⟩

lemma finishSend_idles (id : Str) (r : Except Exc Unit) :
    (finishSend id r).Emits fun l => idles l = true :=
  finishSend_emits (P := fun l => idles l = true) (fun _ _ => rfl) r

lemma replyHops_sourced (peer : Option Str) (row : OutgoingRow) :
    (replyHops peer row).Traced (Sourced U) (fun u hops => past <+: u ∧ FoundHops u hops) past := by
  refine fun w => ⟨trivial,?_⟩
  simp only [Prog.bind]
  split_ifs
  · refine fun v => ⟨trivial,?_,?_⟩
    · rw [List.append_assoc]
      exact List.prefix_append ..
    · dsimp only
      cases hrow : v.store.messages.find (peer.getD [],(w.store.keys.replyTo.lookup row.id).getD []) with
      | none => exact Or.inl rfl
      | some found => exact Or.inr ⟨v,_,found,by simp,hrow,rfl⟩
  · exact ⟨List.prefix_append ..,Or.inl rfl⟩

lemma dispatchOutgoing_sourced {config : Config} {row : OutgoingRow} (hc : ReadConfig past config)
    (hrow : Selected past row) :
    (dispatchOutgoing U config row).Traced (Sourced U) Anyhow past := by
  refine fun w => ⟨⟨row,hrow,rfl⟩,fun w₁ => ⟨trivial,?_⟩⟩
  simp only [Prog.bind]
  split
  · exact (traced_of_idles (finishSend_idles _ _)).imp fun _ _ _ => trivial
  · refine (replyHops_sourced _ row).bind fun u hops hu => fun w₂ => ⟨trivial,?_⟩
    obtain ⟨hu,hhops⟩ := hu
    simp only [Prog.bind]
    split
    · exact (traced_of_idles (finishSend_idles _ _)).imp fun _ _ _ => trivial
    · rename_i target data hout
      -- the past of the write, with all that has gone into it
      have hpast : past <+: u ++ [⟨.look .machine,w₂⟩] :=
        ((List.prefix_append ..).trans (List.prefix_append ..)).trans
          (hu.trans (List.prefix_append ..))
      refine fun w₃ => ⟨⟨⟨config,w₂,_,row,hops,target,hc.mono hpast,by simp,hrow.mono hpast,rfl,?_,
        hout⟩,w,?_⟩,?_⟩
      · obtain hnil | ⟨v,key,found,hv,hfound⟩ := hhops
        · exact Or.inl hnil
        · exact Or.inr ⟨v,key,found,List.mem_append_left _ hv,hfound⟩
      · exact List.mem_append_left _ (hu.subset (by simp))
      · exact (traced_of_idles (finishSend_idles _ _)).imp fun _ _ _ => trivial

lemma dispatch_sourced {config : Config} (hc : ReadConfig past config) :
    (dispatch U config).Traced (Sourced U) Anyhow past := by
  refine fun w => ⟨trivial,?_⟩
  simp only [Prog.bind]
  split
  · rename_i row hrow
    exact dispatchOutgoing_sourced (hc.mono (List.prefix_append ..)) ⟨w,by simp,hrow⟩
  · have hemits := dispatchInbox_emits (P := fun l => idles l = true) (fun _ _ => rfl) (fun _ _ => rfl)
      (fun _ => rfl) config
    exact (traced_of_idles hemits).imp fun _ _ _ => trivial

lemma workerPass_sourced (due : Bool) :
    (workerPass U due).Traced (Sourced U) Anyhow past := by
  refine fun w => ⟨trivial,?_⟩
  simp only [Prog.bind]
  split
  · trivial
  · rename_i config hc
    refine fun w₁ => ⟨trivial,?_⟩
    simp only [Prog.bind]
    have hemits := supervise_emits (P := fun l => idles l = true) (fun _ _ => rfl) (fun _ => rfl) config
    refine (traced_of_idles (hemits _)).bind fun u _ hu => ?_
    split_ifs
    · exact dispatch_sourced ⟨w,hu.subset (by simp),hc⟩
    · trivial

lemma worker_sourced (passes : List Bool) (past : List (Step World Op)) :
    (worker U passes).Traced (Sourced U) Anyhow past := by
  induction passes generalizing past with
  | nil => trivial
  | cons due rest ih =>
    refine (workerPass_sourced due).bind fun u goesOn _ => ?_
    split_ifs
    · exact ih u
    · trivial

lemma serve_sourced (pid : Pid) (passes : List Bool) :
    (serve U pid passes).Traced (Sourced U) Anyhow past := by
  refine fun w => ⟨trivial,fun w₁ => ⟨trivial,?_⟩⟩
  simp only [Prog.bind]
  split_ifs
  · trivial
  · split
    · trivial
    · have hstart : (startup pid ‹Config›).Emits fun l => idles l = true :=
        ⟨rfl,fun _ => ⟨rfl,fun _ => ⟨rfl,fun _ => emit_emits rfl⟩⟩⟩
      refine (traced_of_idles hstart).bind fun u _ _ => (worker_sourced passes u).bind fun u _ _ => ?_
      exact fun _ => ⟨trivial,trivial⟩

end

lemma idles_of_made {ρ : Rights} (hl : ρ.listener = false) {l : Op} (h : Made ρ l) :
    idles l = true := by
  unfold idles
  split
  · cases hl.symm.trans h
  · cases hl.symm.trans h
  · rfl

theorem code_sourced (U : Interp) (p : Process) : (p.code U).Traced (Sourced U) Anyhow [] := by
  have hmade := p.code_made U
  have hidle : p.rights.listener = false → (p.code U).Traced (Sourced U) Anyhow [] :=
    fun hl => (traced_of_idles (hmade.imp fun _ => idles_of_made hl)).imp fun _ _ _ => trivial
  cases p with
  | serve pid passes => exact serve_sourced pid passes
  | accept peer frame => cases frame <;> exact hidle rfl
  | _ => exact hidle rfl

end PeerChat.Mesh
