import PeerChat.Interleaving.Exclusive
import PeerChat.Notify.Program

/-! A blocked message is named in at most one advisory. A pass names what it has found unmarked and
has marked since; marks are never taken back. -/
namespace PeerChat.Notify
open Python Wire Interleaving

def NotifyOp.advises : NotifyOp → Bool
  | .advise _ => true
  | _ => false

/-- The advisory names the message of the peer. -/
def Advisory.about (key mid : Str) (a : Advisory) : Bool := a.key = key && a.data.names mid

/-- The attempts to tell the peer of the message. -/
def warnings (key mid : Str) (s : Post) : ℕ := s.attempts.countP (Advisory.about key mid)

/-! What the accesses change. -/

lemma marked_iff (s : Post) (key mid : Str) :
    marked s key mid = true ↔ markKey key mid ∈ Dict.keys s.marks := Dict.any_key_iff ..

lemma marked_putMark (s : Post) (key mid : Str) (mark : Mark) :
    marked (apply (NotifyOp.putMark key mid mark) s) key mid = true := by
  rw [marked_iff]
  exact Dict.mem_keys_set.mpr (Or.inl rfl)

/-- Marks stay. -/
lemma marked_kept (l : NotifyOp) {s : Post} {key mid : Str} (h : marked s key mid = true) :
    marked (apply l s) key mid = true := by
  cases l with
  | putMark key' mid' mark =>
    rw [marked_iff] at h ⊢
    exact Dict.mem_keys_set.mpr (Or.inr h)
  | _ => exact h

lemma attempts_kept {l : NotifyOp} (h : l.advises = false) (s : Post) :
    (apply l s).attempts = s.attempts := by
  cases l with
  | advise a => cases h
  | _ => rfl

lemma warnings_advise (a : Advisory) (key mid : Str) (s : Post) :
    warnings key mid (apply (NotifyOp.advise a) s) =
      warnings key mid s + (a.about key mid).toNat := by
  change (s.attempts ++ [a]).countP _ = _
  rw [List.countP_append]
  unfold warnings
  cases h : a.about key mid with
  | true => simp [h]
  | false => simp [h]

/-! The invariant. -/

/-- Who has been warned of is marked, and has been warned of once. -/
structure Post.Careful (s : Post) : Prop where
  marked_of_named : ∀ key mid, 0 < warnings key mid s → marked s key mid = true
  once : ∀ key mid, warnings key mid s ≤ 1

/-- The pass has found the message unmarked, and has sent nothing since. -/
def FoundUnmarked (key mid : Str) (past : List (Step Post NotifyOp)) : Prop :=
  ∃ u st v, past = u ++ st :: v ∧ st.label.advises = false ∧ marked st.pre key mid = false ∧
    ∀ x ∈ v, x.label.advises = false

def HasMarked (key mid : Str) (past : List (Step Post NotifyOp)) : Prop :=
  ∃ mark s, ⟨.putMark key mid mark,s⟩ ∈ past

/-- A pass names only what it has found unmarked, and has marked. -/
def Warning (past : List (Step Post NotifyOp)) (t : Step Post NotifyOp) : Prop :=
  match t.label with
  | .advise a => ∀ mid, a.data.names mid = true →
      FoundUnmarked a.key mid past ∧ HasMarked a.key mid past
  | _ => True

/-- What a pass can rely on: each of its steps was taken in a good state, marks have stayed, and only
the pass itself has sent anything. -/
def Relies (past : List (Step Post NotifyOp)) (s : Post) : Prop :=
  ∀ u st v, past = u ++ st :: v → st.pre.Careful ∧
    (∀ key mid, marked st.post key mid = true → marked s key mid = true) ∧
    ((∀ x ∈ v, x.label.advises = false) → s.attempts = st.post.attempts)

lemma Relies.snoc {past : List (Step Post NotifyOp)} {t : Step Post NotifyOp} (hI : t.pre.Careful)
    (h : Relies past t.pre) : Relies (past ++ [t]) t.post := by
  intro u st v hcut
  rcases List.eq_nil_or_concat v with rfl | ⟨v,x,rfl⟩
  · obtain ⟨-,rfl⟩ := List.append_singleton_inj.mp hcut
    exact ⟨hI,fun _ _ => id,fun _ => rfl⟩
  · rw [List.concat_eq_append,← List.cons_append,← List.append_assoc] at hcut
    obtain ⟨rfl,rfl⟩ := List.append_singleton_inj.mp hcut
    obtain ⟨hst,hmarks,hattempts⟩ := h u st v rfl
    refine ⟨hst,fun key mid hm => marked_kept _ (hmarks key mid hm),fun hv => ?_⟩
    have hlast : t.label.advises = false := hv t (by simp)
    have hrest := hattempts fun x hx => hv x (by simp [hx])
    exact (attempts_kept hlast _).trans hrest

lemma Relies.kept {l : NotifyOp} (hl : l.advises = false) {past : List (Step Post NotifyOp)}
    {s : Post} (h : Relies past s) : Relies past (apply l s) := by
  intro u st v hcut
  obtain ⟨hst,hmarks,hattempts⟩ := h u st v hcut
  refine ⟨hst,fun key mid hm => marked_kept _ (hmarks key mid hm),fun hv => ?_⟩
  rw [attempts_kept hl]
  exact hattempts hv

lemma Post.Careful.kept {l : NotifyOp} (hl : l.advises = false) {s : Post} (h : s.Careful) :
    (apply l s).Careful := by
  have hsame : ∀ key mid, warnings key mid (apply l s) = warnings key mid s := by
    intro key mid
    unfold warnings
    rw [attempts_kept hl]
  constructor
  · intro key mid hnamed
    rw [hsame] at hnamed
    exact marked_kept l (h.marked_of_named key mid hnamed)
  · intro key mid
    rw [hsame]
    exact h.once key mid

/-- Of what a pass has found unmarked, nobody has been warned. -/
lemma Relies.unwarned {past : List (Step Post NotifyOp)} {s : Post} (h : Relies past s)
    {key mid : Str} (hfound : FoundUnmarked key mid past) : warnings key mid s = 0 := by
  obtain ⟨u,st,v,hcut,hst,hunmarked,hv⟩ := hfound
  obtain ⟨hcareful,-,hattempts⟩ := h u st v hcut
  have hsame : s.attempts = st.pre.attempts := (hattempts hv).trans (attempts_kept hst _)
  by_contra hne
  have hmarked := hcareful.marked_of_named key mid (by
    unfold warnings at hne ⊢
    rw [← hsame]
    omega)
  rw [hunmarked] at hmarked
  cases hmarked

lemma Relies.marked {past : List (Step Post NotifyOp)} {s : Post} (h : Relies past s)
    {key mid : Str} (hmarked : HasMarked key mid past) : marked s key mid = true := by
  obtain ⟨mark,s',hmem⟩ := hmarked
  obtain ⟨u,v,hcut⟩ := List.append_of_mem hmem
  exact (h u _ v hcut).2.1 key mid (marked_putMark s' key mid mark)

lemma Post.Careful.step {past : List (Step Post NotifyOp)} {t : Step Post NotifyOp}
    (hI : t.pre.Careful) (hK : Relies past t.pre) (hG : Warning past t) : t.post.Careful := by
  obtain ⟨l,s⟩ := t
  cases l with
  | advise a =>
    have hnew : ∀ key mid, a.about key mid = true →
        warnings key mid s = 0 ∧ Notify.marked s key mid = true := by
      intro key mid habout
      simp only [Advisory.about,Bool.and_eq_true,decide_eq_true_eq] at habout
      obtain ⟨rfl,hnames⟩ := habout
      obtain ⟨hfound,hmarked⟩ := hG mid hnames
      exact ⟨hK.unwarned hfound,hK.marked hmarked⟩
    constructor
    · intro key mid hnamed
      change 0 < warnings key mid (apply (NotifyOp.advise a) s) at hnamed
      rw [warnings_advise] at hnamed
      cases habout : a.about key mid with
      | true => exact (hnew key mid habout).2
      | false =>
        rw [habout] at hnamed
        exact hI.marked_of_named key mid hnamed
    · intro key mid
      change warnings key mid (apply (NotifyOp.advise a) s) ≤ 1
      rw [warnings_advise]
      cases habout : a.about key mid with
      | true =>
        rw [(hnew key mid habout).1]
        exact le_refl 1
      | false => exact hI.once key mid
  | _ => exact hI.kept rfl

/-! What a pass does. -/

lemma FoundUnmarked.snoc {key mid : Str} {past : List (Step Post NotifyOp)}
    (h : FoundUnmarked key mid past) {t : Step Post NotifyOp} (ht : t.label.advises = false) :
    FoundUnmarked key mid (past ++ [t]) := by
  obtain ⟨u,st,v,rfl,hst,hunmarked,hv⟩ := h
  refine ⟨u,st,v ++ [t],by simp,hst,hunmarked,fun x hx => ?_⟩
  rcases List.mem_append.mp hx with hx | hx
  · exact hv x hx
  · rwa [List.mem_singleton.mp hx]

lemma HasMarked.snoc {key mid : Str} {past : List (Step Post NotifyOp)} (h : HasMarked key mid past)
    (t : Step Post NotifyOp) : HasMarked key mid (past ++ [t]) := by
  obtain ⟨mark,s,hmem⟩ := h
  exact ⟨mark,s,List.mem_append_left _ hmem⟩

/-- Every message of the list has been found unmarked. -/
def AllUnmarked (key : Str) (mids : List Str) (past : List (Step Post NotifyOp)) : Prop :=
  ∀ mid ∈ mids, FoundUnmarked key mid past

lemma AllUnmarked.snoc {key : Str} {mids : List Str} {past : List (Step Post NotifyOp)}
    (h : AllUnmarked key mids past) {t : Step Post NotifyOp} (ht : t.label.advises = false) :
    AllUnmarked key mids (past ++ [t]) := fun mid hmid => (h mid hmid).snoc ht

/-- One access that sends nothing. -/
lemma quiet_traced {β : Type} {l : NotifyOp} (hl : l.advises = false) {f : Post → β}
    {Q : List (Step Post NotifyOp) → β → Prop} {past : List (Step Post NotifyOp)}
    (hQ : ∀ s, Q (past ++ [⟨l,s⟩]) (f s)) :
    Prog.Traced Warning Q (.act l fun s => .ret (f s)) past := by
  intro s
  refine ⟨?_,hQ s⟩
  cases l with
  | advise a => cases hl
  | _ => trivial

lemma unwarned_traced (key : Str) (rows : List MessageRow) (mids : List Str)
    {past : List (Step Post NotifyOp)} (h : AllUnmarked key mids past) :
    (unwarned key rows).Traced Warning
      (fun u rows' => AllUnmarked key (mids ++ rows'.map (·.id)) u) past := by
  induction rows generalizing mids past with
  | nil =>
    change AllUnmarked key (mids ++ []) past
    rwa [List.append_nil]
  | cons row rows ih =>
    refine Prog.Traced.bind (quiet_traced (Q := fun u warned =>
      AllUnmarked key (if warned then mids else mids ++ [row.id]) u) rfl fun s => ?_) ?_
    · split
      · exact h.snoc rfl
      · rename_i hunmarked
        intro mid hmid
        rcases List.mem_append.mp hmid with hmid | hmid
        · exact (h mid hmid).snoc rfl
        · obtain rfl := List.mem_singleton.mp hmid
          exact ⟨past,⟨.look,s⟩,[],rfl,rfl,by simpa using hunmarked,by simp⟩
    · intro u warned hu
      refine (ih _ hu).bind fun v rest hv => ?_
      cases warned with
      | true => exact hv
      | false =>
        change AllUnmarked key (mids ++ row.id :: rest.map (·.id)) v
        simpa using hv

lemma markAll_traced (key : Str) (mark : Str → Mark) (mids done : List Str)
    {past : List (Step Post NotifyOp)} {found : List Str} (hfound : AllUnmarked key found past)
    (hdone : ∀ mid ∈ done, HasMarked key mid past) :
    (markAll key mark mids).Traced Warning
      (fun u _ => AllUnmarked key found u ∧ ∀ mid ∈ done ++ mids, HasMarked key mid u) past := by
  induction mids generalizing done past with
  | nil => exact ⟨hfound,by simpa using hdone⟩
  | cons mid mids ih =>
    refine Prog.Traced.bind (quiet_traced (Q := fun u _ => AllUnmarked key found u ∧
      ∀ mid' ∈ done ++ [mid], HasMarked key mid' u) rfl fun s => ⟨hfound.snoc rfl,?_⟩) ?_
    · intro mid' hmid
      rcases List.mem_append.mp hmid with hmid | hmid
      · exact (hdone mid' hmid).snoc _
      · obtain rfl := List.mem_singleton.mp hmid
        exact ⟨mark mid',s,by simp⟩
    · intro u _ hu
      refine (ih _ hu.1 hu.2).imp fun v _ hv => ?_
      simpa using hv

/-- An advisory names the messages that are listed in it. -/
lemma names_advisoryData {p : Pass} {prior : Option NoticeRecord} {row : MessageRow}
    {rows : List MessageRow} {mid : Str}
    (h : (advisoryData p prior (row::rows) row.id).names mid = true) :
    mid ∈ (row::rows).map (·.id) := by
  simp only [AdvisoryData.names,advisoryData,Bool.or_eq_true] at h
  obtain (h | h) | h := h
  · rw [of_decide_eq_true h]
    exact List.mem_cons_self ..
  · exact List.contains_iff_mem.mp h
  · obtain ⟨r,hr,rfl⟩ := List.mem_map.mp (List.contains_iff_mem.mp h)
    exact List.mem_map_of_mem (List.mem_filter.mp hr).1

lemma put_traced {op : NotifyOp} (h : op.advises = false) {past : List (Step Post NotifyOp)}
    {P : List (Step Post NotifyOp) → Prop} (hP : ∀ s, P (past ++ [⟨op,s⟩])) :
    (put op).Traced Warning (fun u _ => P u) past := quiet_traced h hP

lemma advise_traced (U : Interp) (p : Pass) (key : Str) (peer : PeerRecord)
    (prior : Option NoticeRecord) {rows : List MessageRow} {past : List (Step Post NotifyOp)}
    (h : AllUnmarked key (rows.map (·.id)) past) :
    (advise U p key peer prior rows).Traced Warning (fun _ _ => True) past := by
  cases rows with
  | nil => trivial
  | cons row rows =>
    unfold advise
    have hput : ∀ (record : NoticeRecord) (u : List (Step Post NotifyOp)),
        (put (.putNotice key record)).Traced Warning (fun _ _ => True) u :=
      fun record u => quiet_traced rfl fun _ => trivial
    refine Prog.Traced.bind (put_traced rfl fun s => h.snoc rfl) fun u _ hu => ?_
    refine Prog.Traced.bind (markAll_traced key _ _ [] hu (by simp)) fun v _ hv => ?_
    refine Prog.Traced.bind (P := fun _ _ => True) (fun s => ⟨?_,trivial⟩) fun w s _ => ?_
    · intro mid hnames
      have hmid := names_advisoryData hnames
      exact ⟨hv.1 mid hmid,hv.2 mid hmid⟩
    · split
      · exact (hput _ w).bind fun _ _ _ => trivial
      · split_ifs
        · exact (hput _ w).bind fun _ _ _ => trivial
        · trivial

lemma look_traced {β : Type} (f : Post → β) (past : List (Step Post NotifyOp)) :
    (look f).Traced Warning (fun _ _ => True) past := quiet_traced rfl fun _ => trivial

lemma notifyPeer_traced (U : Interp) (second : Time) (p : Pass) (key : Str) (peer : PeerRecord)
    (past : List (Step Post NotifyOp)) :
    (notifyPeer U second p key peer).Traced Warning (fun _ _ => True) past := by
  refine (look_traced _ past).bind fun u prior _ => ?_
  refine (look_traced _ u).bind fun u rows _ => ?_
  have hstart : AllUnmarked key [] u := by simp [AllUnmarked]
  refine (unwarned_traced key _ [] hstart).bind fun v unseen hv => ?_
  refine advise_traced U p key peer prior fun mid hmid => hv mid ?_
  obtain ⟨row,hrow,rfl⟩ := List.mem_map.mp hmid
  exact List.mem_map_of_mem (List.mem_filter.mp (List.mem_of_mem_take hrow)).1

lemma notifyPeers_traced (U : Interp) (second : Time) (p : Pass)
    (peers : List (Str × PeerRecord)) (past : List (Step Post NotifyOp)) :
    (notifyPeers U second p peers).Traced Warning (fun _ _ => True) past := by
  induction peers generalizing past with
  | nil => trivial
  | cons peer peers ih =>
    refine (notifyPeer_traced U second p peer.1 peer.2 past).bind fun u goesOn _ => ?_
    split_ifs
    · exact ih u
    · trivial

lemma notify_traced (U : Interp) (second : Time) (config : Config) (pid : Pid) :
    (notify U second config pid).Traced Warning (fun _ _ => True) [] := by
  refine (look_traced _ _).bind fun u runtime _ => ?_
  split_ifs
  · trivial
  · refine (look_traced _ u).bind fun u current _ => ?_
    refine (look_traced _ u).bind fun u recovery _ => ?_
    refine (look_traced _ u).bind fun u now _ => ?_
    refine (look_traced _ u).bind fun u peers _ => ?_
    exact notifyPeers_traced U second _ peers u

/-! Runs. -/

lemma notifier_sole (U : Interp) (second : Time) :
    (notifier U second).Reserved Warning Post.Careful Relies fun l => l.advises where
  traced task := notify_traced U second task.config task.pid
  code task htask := by cases htask
  outside l hl := by
    cases l with
    | outside => rfl
    | _ => cases hl
  start s _ := by
    intro u st v hcut
    simp at hcut
  own past t hI hK hG := ⟨hI.step hK hG,hK.snoc hI⟩
  other l s hl hI := ⟨hI.kept hl,fun _ hK => hK.kept hl⟩

/-- A single listener makes pass after pass. Whatever else changes between the accesses of its
passes, whether or not what it sends arrives, and wherever its passes end, a message of a peer is
named in at most one advisory. -/
theorem warned_at_most_once (U : Interp) (second : Time) (world : World) (snapshot : Snapshot)
    (recovery : Option (Option Str)) (fresh : Str) (notices : List (Str × NoticeRecord))
    (marks : List (Str × Mark)) (es : List (Event PassTask NotifyOp)) (key mid : Str) :
    (((notifier U second).final
      (.idle ⟨world,snapshot,recovery,fresh,notices,marks,[]⟩) es).state.attempts.countP
        fun a => a.key = key && a.data.names mid) ≤ 1 := by
  have hstart : Post.Careful ⟨world,snapshot,recovery,fresh,notices,marks,[]⟩ := by
    constructor
    · intro key mid h
      cases h
    · intro key mid
      exact Nat.zero_le 1
  have hkeeps := (notifier_sole U second).log_keeps es
    (System.known_idle (G := Warning) (Q := fun _ _ => True) _) (System.Reserved.idle_keeps hstart)
  exact hkeeps.1.once key mid

end PeerChat.Notify
