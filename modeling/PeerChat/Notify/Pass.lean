import PeerChat.Interleaving.Alone
import PeerChat.Notify.Once

/-! What a whole pass does when nothing comes between its accesses: for each peer it names the
first twenty of the rows that it has selected, and marks them. -/
namespace PeerChat.Notify
open Python Wire Interleaving Relational

/-! Sending. -/

/-- Whatever the call raises, the pass expects it. -/
def Expected {α : Type} (x : Except Exc α) : Prop := ∀ exc, x = .error exc → catches exc = true

/-- Files, sockets and the databases of counterparts raise nothing but their own errors. -/
structure Machine.Usual (m : Machine) : Prop where
  lstat : ∀ path, Expected (m.lstat path)
  counterpart : ∀ root thread, Expected (m.counterpart root thread)
  connect : ∀ endpoint, Expected (m.connect endpoint)
  sendall : ∀ endpoint, Expected (m.sendall endpoint)

lemma expected_ok {α : Type} (a : α) : Expected (.ok a : Except Exc α) := by
  intro exc h
  cases h

lemma expected_value {α : Type} {exc : Exc} (h : exc.kind = .value) :
    Expected (.error exc : Except Exc α) := by
  intro exc' h'
  cases h'
  simp [catches,h]

lemma Expected.bind {α β : Type} {x : Except Exc α} {f : α → Except Exc β} (hx : Expected x)
    (hf : ∀ a, x = .ok a → Expected (f a)) : Expected (x >>= f) := by
  cases x with
  | error exc =>
    intro exc' h
    cases h
    exact hx exc rfl
  | ok a => exact hf a rfl

lemma expected_guard {α : Type} {p : Prop} [Decidable p] {exc : Exc} (h : exc.kind = .value)
    {rest : Except Exc α} (hrest : Expected rest) :
    Expected (if p then (.error exc) else rest) := by
  split_ifs
  · exact expected_value h
  · exact hrest

section
variable {m : Machine} (hm : Machine.Usual m)

lemma expected_checkSocket (m : Machine) (path : Str) (what : String) :
    Expected (checkSocket m path what) := by
  unfold checkSocket
  split
  · exact expected_value rfl
  · exact expected_guard rfl (expected_guard rfl (expected_ok _))

include hm in
lemma expected_resolveCodex (thread home root : Str) : Expected (resolveCodex m thread home root) := by
  refine (hm.counterpart root thread).bind fun c _ => ?_
  refine expected_guard rfl (expected_guard rfl ?_)
  split
  · refine expected_guard rfl (expected_guard rfl (expected_guard rfl ?_))
    split
    · refine expected_guard rfl ?_
      split
      · split_ifs
        · exact (expected_checkSocket m _ _).bind fun _ _ => expected_ok _
        · exact expected_value rfl
      · exact expected_value rfl
    · exact expected_value rfl
  · exact expected_value rfl

include hm in
lemma expected_resolvePeer (record : PeerRecord) : Expected (resolvePeer m record) := by
  unfold resolvePeer
  refine expected_guard rfl ?_
  split
  · exact expected_value rfl
  · split_ifs
    · split
      · exact expected_resolveCodex hm _ _ _
      · exact expected_value rfl
    · unfold resolveClaude
      split
      · refine expected_guard rfl ?_
        exact (expected_checkSocket m _ _).bind fun _ _ => expected_ok _
      · exact expected_value rfl

include hm in
lemma expected_verifySocket (endpoint : Endpoint) : Expected (verifySocket m endpoint) := by
  refine expected_guard rfl ((hm.lstat _).bind fun inode _ => ?_)
  split_ifs
  · exact expected_ok _
  · exact expected_value rfl

include hm in
lemma expected_endpointOf {record : PeerRecord} (h : record.kind = some .codex ∨
    ∃ pid identity socket, record.pid = some pid ∧ record.identity = some identity ∧
      record.socket = some socket) : Expected (endpointOf m record) := by
  unfold endpointOf
  split_ifs with hkind
  · exact expected_resolvePeer hm record
  · obtain ⟨pid,identity,socket,hpid,hidentity,hsocket⟩ := h.resolve_left hkind
    rw [hpid,hidentity,hsocket]
    exact expected_ok _

lemma expected_encodeText (s : Str) : Expected (encodeText s) := by
  unfold encodeText
  split
  · exact expected_ok _
  · exact expected_value rfl

lemma expected_permissionClass (m : Machine) (home thread : Str) :
    Expected (permissionClass m home thread) := by
  unfold permissionClass
  dsimp only
  split
  · exact expected_value rfl
  · refine expected_guard rfl ?_
    split
    · split
      · exact expected_value rfl
      · split_ifs
        · exact expected_ok _
        · exact expected_ok _
        · exact expected_value rfl
    · exact expected_value rfl

lemma expected_statedMode (m : Machine) (config : Config) (advisory : Bool) :
    Expected (statedMode m config advisory) := by
  have h := expected_permissionClass m config.codexHome config.thread
  unfold statedMode
  split
  · exact expected_ok _
  · rename_i exc hexc
    split_ifs
    · exact expected_ok _
    · exact fun exc' he => h exc' (hexc.trans he)

lemma expected_throw {α : Type} {p : Prop} [Decidable p] {exc : Exc} (h : exc.kind = .value)
    {rest : Unit → Except Exc α} (hrest : ∀ u, Expected (rest u)) :
    Expected (if p then (throw exc >>= rest) else rest ()) := by
  split_ifs
  · exact expected_value h
  · exact hrest ()

include hm in
lemma expected_outbound (U : Interp) (config : Config) {peer : PeerRecord}
    (h : peer.kind = some .codex ∨ ∃ pid identity socket, peer.pid = some pid ∧
      peer.identity = some identity ∧ peer.socket = some socket)
    (body mid : Str) (hops : List Str) (advisory : Bool) :
    Expected (outbound U m config peer body mid hops advisory) := by
  refine (expected_endpointOf hm h).bind fun endpoint _ => ?_
  refine (expected_verifySocket hm endpoint).bind fun _ _ => ?_
  refine expected_throw (by rfl) fun _ => ?_
  refine expected_throw (by rfl) fun _ => ?_
  refine (expected_statedMode m config advisory).bind fun mode _ => ?_
  refine ((expected_encodeText _).bind fun bytes _ => expected_ok _).bind fun own _ => ?_
  refine expected_throw (by rfl) fun _ => ?_
  refine (expected_encodeText _).bind fun data _ => ?_
  refine expected_throw (by rfl) fun _ => ?_
  exact (hm.connect endpoint).bind fun _ _ => expected_ok _

/-- An advisory to an enrolled peer goes out, or fails in a way that the pass expects. -/
theorem expected_sendAdvisory (U : Interp) {s : Post} (hm : Machine.Usual s.world.machine)
    (config : Config) (key : Str) (peer : PeerRecord) (body : AdvisoryBody) :
    Expected (sendAdvisory U s config key peer body) := by
  cases body with
  | message text =>
    have hrouted : Expected (routedPeer s.world.machine config (some key)) := by
      unfold routedPeer
      split
      · exact expected_ok _
      · exact expected_value rfl
    refine hrouted.bind fun record hrecord => ?_
    have hmem : ∃ k, (k,record) ∈ allPeers s.world.machine config.toPeerTable := by
      unfold routedPeer at hrecord
      split at hrecord
      · rename_i r hr
        cases hrecord
        obtain ⟨front,rest,heq,-⟩ := List.lookup_eq_some_iff.mp hr
        exact ⟨key,by rw [heq]; simp⟩
      · cases hrecord
    obtain ⟨k,hk⟩ := hmem
    obtain ⟨r,-,hr⟩ := mem_allPeers hk
    refine (expected_outbound hm U config (normalise_complete hr) _ _ _ _).bind fun target _ => ?_
    exact hm.sendall _
  | frame value =>
    refine (expected_resolvePeer hm peer).bind fun endpoint _ => ?_
    refine (expected_verifySocket hm endpoint).bind fun _ _ => ?_
    exact (hm.connect endpoint).bind fun _ _ => hm.sendall endpoint

end

/-! Marks. -/

lemma takeWhile_reverse {c : CodePoint} {m : Str} (h : c ∉ m) (k : Str) :
    (k ++ c :: m).reverse.takeWhile (· ≠ c) = m.reverse := by
  have hall : ∀ x ∈ m.reverse, decide (x ≠ c) = true := by
    intro x hx
    have hne : x ≠ c := by
      rintro rfl
      exact h (List.mem_reverse.mp hx)
    exact decide_eq_true hne
  rw [List.reverse_append,List.reverse_cons,List.append_assoc,List.takeWhile_append_of_pos hall]
  simp

/-- Marks of different messages differ, as no id has a colon in it. -/
lemma markKey_inj {key key' m m' : Str} (hm : ofChar ':' ∉ m) (hm' : ofChar ':' ∉ m')
    (h : markKey key m = markKey key' m') : key = key' ∧ m = m' := by
  have hcolon : str ":" = [ofChar ':'] := rfl
  unfold markKey at h
  rw [hcolon,List.append_assoc,List.append_assoc,List.append_assoc,List.append_assoc] at h
  have h := List.append_cancel_left h
  rw [List.singleton_append,List.singleton_append] at h
  have hids : m.reverse = m'.reverse := by
    rw [← takeWhile_reverse hm key,← takeWhile_reverse hm' key',h]
  have hsame := List.reverse_injective hids
  subst hsame
  exact ⟨List.append_cancel_right h,rfl⟩

lemma colon_not_mem_of_validId {mid : Str} (h : validId mid = true) : ofChar ':' ∉ mid :=
  not_mem_of_validId h (by decide) (by decide) (by decide)

/-- An attempt has named the message to the peer. -/
def Named (key mid : Str) (s : Post) : Prop := ∃ a ∈ s.attempts, a.about key mid = true

/-! The pass. -/

/-- These rows of the peer, and nothing else, have been marked and named. -/
structure Told (key : Str) (rows : List MessageRow) (s s' : Post) : Prop where
  world : s'.world = s.world
  marked : ∀ k m, marked s' k m = true ↔
    marked s k m = true ∨ ∃ r ∈ rows, markKey k m = markKey key r.id
  named : ∀ k m, Named k m s' ↔ Named k m s ∨ k = key ∧ ∃ r ∈ rows, r.id = m

lemma Told.nothing (key : Str) (s : Post) : Told key [] s s := by
  constructor
  · rfl
  · simp
  · simp

lemma unwarned_alone (key : Str) (rows : List MessageRow) (s : Post) :
    (unwarned key rows).run s = s ∧
      (unwarned key rows).value s = rows.filter fun r => !marked s key r.id := by
  induction rows with
  | nil => exact ⟨rfl,rfl⟩
  | cons row rows ih =>
    obtain ⟨hrun,hvalue⟩ := ih
    have hrun' : (unwarned key (row::rows)).run s = (unwarned key rows).run s := by
      change ((unwarned key rows >>= _).run s : Post) = _
      rw [Prog.run_bind]
      rfl
    have hvalue' : (unwarned key (row::rows)).value s =
        if marked s key row.id then (unwarned key rows).value s
        else row :: (unwarned key rows).value s := by
      change ((unwarned key rows >>= _).value s : List MessageRow) = _
      rw [Prog.value_bind]
      rfl
    refine ⟨hrun'.trans hrun,?_⟩
    rw [hvalue',hvalue]
    cases hmarked : marked s key row.id with
    | true => rw [List.filter_cons_of_neg (by simp [hmarked])]; rfl
    | false => rw [List.filter_cons_of_pos (by simp [hmarked])]; rfl

lemma markAll_alone (key : Str) (mark : Str → Mark) (mids : List Str) (s : Post) :
    ((markAll key mark mids).run s).world = s.world ∧
    ((markAll key mark mids).run s).attempts = s.attempts ∧
    ∀ k m, marked ((markAll key mark mids).run s) k m = true ↔
      marked s k m = true ∨ ∃ mid ∈ mids, markKey k m = markKey key mid := by
  induction mids generalizing s with
  | nil => exact ⟨rfl,rfl,by simp [markAll]⟩
  | cons mid mids ih =>
    have hrun : (markAll key mark (mid::mids)).run s =
        (markAll key mark mids).run (apply (NotifyOp.putMark key mid (mark mid)) s) := rfl
    obtain ⟨hworld,hattempts,hmarked⟩ := ih (apply (NotifyOp.putMark key mid (mark mid)) s)
    rw [hrun]
    refine ⟨hworld,hattempts,?_⟩
    intro k m
    have hput : marked (apply (NotifyOp.putMark key mid (mark mid)) s) k m = true ↔
        markKey k m = markKey key mid ∨ marked s k m = true := by
      rw [marked_iff,marked_iff]
      exact Dict.mem_keys_set
    rw [hmarked,hput]
    simp only [List.mem_cons]
    constructor
    · intro h
      obtain (h | h) | ⟨mid',hmid,h⟩ := h
      · exact Or.inr ⟨mid,Or.inl rfl,h⟩
      · exact Or.inl h
      · exact Or.inr ⟨mid',Or.inr hmid,h⟩
    · intro h
      obtain h | ⟨mid',rfl | hmid,h⟩ := h
      · exact Or.inl (Or.inr h)
      · exact Or.inl (Or.inl h)
      · exact Or.inr ⟨mid',hmid,h⟩

/-- An advisory names its rows. -/
lemma advisoryData_names (p : Pass) (prior : Option NoticeRecord) {row : MessageRow}
    (rows : List MessageRow) (mid : Str) :
    (advisoryData p prior (row::rows) row.id).names mid = true ↔ ∃ r ∈ row::rows, r.id = mid := by
  constructor
  · intro h
    obtain ⟨r,hr,hid⟩ := List.mem_map.mp (names_advisoryData h)
    exact ⟨r,hr,hid⟩
  · intro ⟨r,hr,hid⟩
    have hmem : (advisoryData p prior (row::rows) row.id).messageIds.contains mid = true :=
      List.contains_iff_mem.mpr (List.mem_map.mpr ⟨r,hr,hid⟩)
    rw [AdvisoryData.names,hmem,Bool.or_true,Bool.true_or]

lemma advise_alone (U : Interp) (p : Pass) (key : Str) (peer : PeerRecord)
    (prior : Option NoticeRecord) (rows : List MessageRow) {s : Post}
    (hm : Machine.Usual s.world.machine) :
    (advise U p key peer prior rows).value s = true ∧
      Told key rows s ((advise U p key peer prior rows).run s) := by
  cases rows with
  | nil => exact ⟨rfl,.nothing key s⟩
  | cons row rows =>
    let data := advisoryData p prior (row::rows) row.id
    let mark : Str → Mark := fun mid => ⟨p.now,
      if data.heldIds.contains mid then some (str "held") else p.current.deliveryState,
      p.current.remaining⟩
    let begun := apply (NotifyOp.putNotice key ⟨p.signature,p.now,str "attempting"⟩) s
    let advisory := advisoryFor p.config p.current key peer data
    obtain ⟨hworld,hattempts,hmarked⟩ := markAll_alone key mark data.messageIds begun
    let ready := (markAll key mark data.messageIds).run begun
    -- what comes after the marks
    obtain ⟨rest,hrest,hnoted⟩ : ∃ rest : NotifyCode Bool, advise U p key peer prior (row::rows) =
        (put (.putNotice key ⟨p.signature,p.now,str "attempting"⟩) >>= fun _ =>
          markAll key mark data.messageIds >>= fun _ => rest) ∧
        (Expected (sendAdvisory U ready p.config key peer advisory.body) → ∃ record,
          rest.value ready = true ∧ rest.run ready =
            apply (NotifyOp.putNotice key record) (apply (NotifyOp.advise advisory) ready)) := by
      refine ⟨_,rfl,?_⟩
      intro hsend
      rw [Prog.perform_bind,Prog.value_act,Prog.run_act]
      -- the outcome of the sending decides only what is noted of it
      cases hresult : sendAdvisory U ready p.config key peer advisory.body with
      | ok u => exact ⟨_,rfl,rfl⟩
      | error exc =>
        simp only [hsend exc hresult,if_true]
        exact ⟨_,rfl,rfl⟩
    have hrun : (advise U p key peer prior (row::rows)).run s = rest.run ready := by
      rw [hrest]
      change ((markAll key mark data.messageIds >>= fun _ => rest).run begun : Post) = _
      rw [Prog.run_bind]
    have hvalue : (advise U p key peer prior (row::rows)).value s = rest.value ready := by
      rw [hrest]
      change ((markAll key mark data.messageIds >>= fun _ => rest).value begun : Bool) = _
      rw [Prog.value_bind]
    have hsend : Expected (sendAdvisory U ready p.config key peer advisory.body) := by
      refine expected_sendAdvisory U ?_ p.config key peer advisory.body
      rw [show ready.world = s.world from hworld]
      exact hm
    obtain ⟨record,htrue,hdone⟩ := hnoted hsend
    rw [hrun,hvalue,hdone]
    refine ⟨htrue,hworld,?_,?_⟩
    · intro k m
      have hids : (∃ mid ∈ data.messageIds, markKey k m = markKey key mid) ↔
          ∃ r ∈ row::rows, markKey k m = markKey key r.id := by
        simp [data,advisoryData]
      rw [← hids]
      exact hmarked k m
    · intro k m
      have habout : advisory.about k m = true ↔ k = key ∧ ∃ r ∈ row::rows, r.id = m := by
        rw [← advisoryData_names p prior]
        simp only [Advisory.about,Bool.and_eq_true,decide_eq_true_eq]
        constructor
        · intro h
          obtain ⟨hk,hn⟩ := h
          exact ⟨hk.symm,hn⟩
        · intro h
          obtain ⟨hk,hn⟩ := h
          exact ⟨hk.symm,hn⟩
      rw [← habout]
      change (∃ a ∈ ready.attempts ++ [advisory],a.about k m = true) ↔ _
      rw [show ready.attempts = s.attempts from hattempts]
      constructor
      · intro h
        obtain ⟨a,ha,hn⟩ := h
        obtain ha | ha := List.mem_append.mp ha
        · exact Or.inl ⟨a,ha,hn⟩
        · obtain rfl := List.mem_singleton.mp ha
          exact Or.inr hn
      · intro h
        obtain ⟨a,ha,hn⟩ | hn := h
        · exact ⟨a,List.mem_append_left _ ha,hn⟩
        · exact ⟨advisory,by simp,hn⟩

/-- The rows of the peer that the query finds, oldest first. -/
def pendingRows (key : Str) (s : Store) : List MessageRow :=
  s.select fun r => r.peer = key && (r.status = .received || r.status = .held)

/-- What counts as blocked: it is held, or it has been received by a bridge out of reach, and any
grace of the start is over. -/
def blocked (second : Time) (p : Pass) (row : MessageRow) : Bool :=
  (row.status = .held || ¬ p.current.reachable) && overdue second p row

/-- The rows of the peer that a pass names. -/
def chosen (second : Time) (p : Pass) (key : Str) (s : Post) : List MessageRow :=
  ((((pendingRows key s.world.store).take 1000).filter (blocked second p)).filter
    fun r => !marked s key r.id).take 20

lemma mem_chosen {second : Time} {p : Pass} {key : Str} {s : Post} {r : MessageRow}
    (h : r ∈ chosen second p key s) : r ∈ s.world.store.messages.rows := by
  have h := List.mem_of_mem_take h
  have h := (List.mem_filter.mp (List.mem_filter.mp h).1).1
  exact (Table.select_mem.mp (List.mem_of_mem_take h)).1

lemma notifyPeer_alone (U : Interp) (second : Time) (p : Pass) (key : Str) (peer : PeerRecord)
    {s : Post} (hm : Machine.Usual s.world.machine) :
    (notifyPeer U second p key peer).value s = true ∧
      Told key (chosen second p key s) s ((notifyPeer U second p key peer).run s) := by
  let found := ((pendingRows key s.world.store).take 1000).filter
    fun r => r.status = .held || ¬ p.current.reachable
  let prior := s.notices.lookup key
  let rest := fun rows : List MessageRow =>
    advise U p key peer prior ((rows.filter (overdue second p)).take 20)
  obtain ⟨hsame,hunwarned⟩ := unwarned_alone key found s
  have hrows : ((found.filter fun r => !marked s key r.id).filter (overdue second p)).take 20 =
      chosen second p key s := by
    unfold chosen blocked
    simp only [found,List.filter_filter]
    congr 1
    refine List.filter_congr fun r _ => ?_
    rw [Bool.and_comm (overdue second p r),Bool.and_assoc]
  have hrun : (notifyPeer U second p key peer).run s =
      (advise U p key peer prior (chosen second p key s)).run s := by
    change ((unwarned key found >>= rest).run s : Post) = _
    rw [Prog.run_bind,hsame,hunwarned,← hrows]
  have hvalue : (notifyPeer U second p key peer).value s =
      (advise U p key peer prior (chosen second p key s)).value s := by
    change ((unwarned key found >>= rest).value s : Bool) = _
    rw [Prog.value_bind,hsame,hunwarned,← hrows]
  rw [hrun,hvalue]
  exact advise_alone U p key peer prior _ hm

/-- What another peer is told changes nothing for this one. -/
lemma Told.chosen_eq {second : Time} {p : Pass} {key key' : Str} {rows : List MessageRow}
    {s s' : Post} (h : Told key rows s s') (hne : key' ≠ key)
    (hids : ∀ r ∈ s.world.store.messages.rows, ofChar ':' ∉ r.id)
    (hrows : ∀ r ∈ rows, r ∈ s.world.store.messages.rows) :
    chosen second p key' s' = chosen second p key' s := by
  unfold chosen
  rw [h.world]
  congr 1
  refine List.filter_congr fun r hr => ?_
  have hr : r ∈ s.world.store.messages.rows := by
    have hr := (List.mem_filter.mp hr).1
    exact (Table.select_mem.mp (List.mem_of_mem_take hr)).1
  have hmarked : Notify.marked s' key' r.id = Notify.marked s key' r.id := by
    rw [Bool.eq_iff_iff,h.marked]
    constructor
    · intro hboth
      obtain hs | ⟨r',hr',hkey⟩ := hboth
      · exact hs
      · exact absurd (markKey_inj (hids r hr) (hids r' (hrows r' hr')) hkey).1 hne
    · exact Or.inl
  rw [hmarked]

/-- The loop over the peers. -/
lemma notifyPeers_alone (U : Interp) (second : Time) (p : Pass)
    {peers : List (Str × PeerRecord)} (hnodup : (Dict.keys peers).Nodup) {s : Post}
    (hm : Machine.Usual s.world.machine)
    (hids : ∀ r ∈ s.world.store.messages.rows, ofChar ':' ∉ r.id) :
    ((notifyPeers U second p peers).run s).world = s.world ∧
    ∀ key m, ofChar ':' ∉ m →
      (marked ((notifyPeers U second p peers).run s) key m = true ↔
        marked s key m = true ∨ key ∈ Dict.keys peers ∧ ∃ r ∈ chosen second p key s, r.id = m) ∧
      (Named key m ((notifyPeers U second p peers).run s) ↔
        Named key m s ∨ key ∈ Dict.keys peers ∧ ∃ r ∈ chosen second p key s, r.id = m) := by
  induction peers generalizing s with
  | nil => exact ⟨rfl,fun key m _ => by simp [notifyPeers]⟩
  | cons peer peers ih =>
    obtain ⟨hnot,hnodup⟩ := List.nodup_cons.mp hnodup
    change peer.1 ∉ Dict.keys peers at hnot
    obtain ⟨htrue,htold⟩ := notifyPeer_alone U second p peer.1 peer.2 hm
    let next := (notifyPeer U second p peer.1 peer.2).run s
    have hrun : (notifyPeers U second p (peer::peers)).run s =
        (notifyPeers U second p peers).run next := by
      change ((notifyPeer U second p peer.1 peer.2 >>= fun goesOn =>
        if goesOn then notifyPeers U second p peers else .ret ()).run s : Post) = _
      rw [Prog.run_bind,htrue]
      rfl
    have hworld : next.world = s.world := htold.world
    have hm' : Machine.Usual next.world.machine := by rwa [hworld]
    have hids' : ∀ r ∈ next.world.store.messages.rows, ofChar ':' ∉ r.id := by rwa [hworld]
    obtain ⟨hrest,hpeers⟩ := ih hnodup hm' hids'
    rw [hrun]
    refine ⟨hrest.trans hworld,?_⟩
    intro key m hcolon
    obtain ⟨hmarked,hnamed⟩ := hpeers key m hcolon
    have hrows : ∀ r ∈ chosen second p peer.1 s, r ∈ s.world.store.messages.rows :=
      fun r hr => mem_chosen hr
    by_cases hkey : key = peer.1
    · subst hkey
      have hmark : (∃ r ∈ chosen second p peer.1 s, markKey peer.1 m = markKey peer.1 r.id) ↔
          ∃ r ∈ chosen second p peer.1 s, r.id = m := by
        constructor
        · intro ⟨r,hr,heq⟩
          exact ⟨r,hr,(markKey_inj hcolon (hids r (hrows r hr)) heq).2.symm⟩
        · intro ⟨r,hr,heq⟩
          exact ⟨r,hr,by rw [heq]⟩
      rw [hmarked,hnamed,htold.marked,htold.named,hmark]
      simp [hnot]
    · have hnomark : ¬ ∃ r ∈ chosen second p peer.1 s, markKey key m = markKey peer.1 r.id := by
        intro ⟨r,hr,heq⟩
        exact hkey (markKey_inj hcolon (hids r (hrows r hr)) heq).1
      have hsame : chosen second p key next = chosen second p key s :=
        htold.chosen_eq hkey hids hrows
      rw [hmarked,hnamed,hsame,htold.marked,htold.named]
      simp [hnomark,hkey]

end PeerChat.Notify
