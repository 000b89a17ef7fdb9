import PeerChat.Notify.Pass
import PeerChat.Wire.RoundTrip

/-! Which blocked messages the passes come to. A pass looks at the thousand oldest rows of a peer,
and those that have been named stay among them; so what is younger is never reached. -/
namespace PeerChat.Notify
open Python Wire Interleaving Relational

/-- What a pass meets besides the database. -/
structure Scene where
  machine : Machine
  snapshot : Snapshot
  recovery : Option (Option Str)
  fresh : Str

/-- What the pass finds at its beginning. -/
def Scene.pass (e : Scene) (config : Config) : Pass :=
  ⟨config,e.snapshot,e.recovery,e.machine.now⟩

def Post.at' (s : Post) (e : Scene) : Post :=
  { s with
    world := { s.world with machine := e.machine }
    snapshot := e.snapshot
    recovery := e.recovery
    fresh := e.fresh }

/-- Passes that follow one another; nothing but themselves changes the database. -/
def passes (U : Interp) (second : Time) (config : Config) (pid : Pid) (s : Post)
    (es : List Scene) : Post :=
  es.foldl (fun s e => (notify U second config pid).run (s.at' e)) s

/-- The peer is enrolled, and calls fail in their usual ways. -/
structure Scene.Serves (e : Scene) (config : Config) (key : Str) : Prop where
  usual : Machine.Usual e.machine
  enrolled : key ∈ Dict.keys (allPeers e.machine config.toPeerTable)

lemma mem_pendingRows {key : Str} {s : Store} {r : MessageRow} (h : r ∈ pendingRows key s) :
    r ∈ s.messages.rows ∧ r.peer = key := by
  obtain ⟨hmem,hp⟩ := Table.select_mem.mp h
  simp only [Bool.and_eq_true,decide_eq_true_eq] at hp
  exact ⟨hmem,hp.1⟩

/-- Within a peer the id tells the row. -/
lemma pendingRows_inj {key : Str} {s : Store} {r r' : MessageRow} (h : r ∈ pendingRows key s)
    (h' : r' ∈ pendingRows key s) (hid : r.id = r'.id) : r = r' := by
  obtain ⟨hmem,hpeer⟩ := mem_pendingRows h
  obtain ⟨hmem',hpeer'⟩ := mem_pendingRows h'
  refine List.inj_on_of_nodup_map s.messages.nodup hmem hmem' ?_
  rw [MessageRow.key,MessageRow.key,hid,hpeer,hpeer']

lemma pendingRows_nodup (key : Str) (s : Store) : (pendingRows key s).Nodup :=
  List.Nodup.of_map _ (Table.select_nodup ..)

lemma filter_not_mem_take {α : Type} [DecidableEq α] {L : List α} (hL : L.Nodup) (n : ℕ) :
    (L.filter fun a => decide (a ∉ L.take n)) = L.drop n := by
  have hcut := L.take_append_drop n
  have hdisjoint : (L.take n).Disjoint (L.drop n) := by
    rw [← hcut] at hL
    exact List.disjoint_of_nodup_append hL
  have htake : (L.take n).filter (fun a => decide (a ∉ L.take n)) = [] := by
    rw [List.filter_eq_nil_iff]
    intro a ha
    simpa using ha
  have hdrop : (L.drop n).filter (fun a => decide (a ∉ L.take n)) = L.drop n := by
    rw [List.filter_eq_self]
    intro a ha
    exact decide_eq_true fun h => hdisjoint h ha
  calc L.filter (fun a => decide (a ∉ L.take n))
      = (L.take n ++ L.drop n).filter fun a => decide (a ∉ L.take n) := by rw [hcut]
    _ = L.drop n := by rw [List.filter_append,htake,hdrop,List.nil_append]

section
variable {U : Interp} {second : Time} {config : Config} {pid : Pid} {key : Str}

/-- One pass tells of the first twenty that are left. -/
lemma pass_alone (U : Interp) (second : Time) {s : Post} {e : Scene} (he : e.Serves config key)
    (hpid : s.world.store.keys.runtime.map (·.pid) = some pid)
    (hids : ∀ r ∈ s.world.store.messages.rows, ofChar ':' ∉ r.id) :
    ((notify U second config pid).run (s.at' e)).world.store = s.world.store ∧
    ∀ m, ofChar ':' ∉ m →
      (marked ((notify U second config pid).run (s.at' e)) key m = true ↔ marked s key m = true ∨
        ∃ r ∈ chosen second (e.pass config) key s, r.id = m) ∧
      (Named key m ((notify U second config pid).run (s.at' e)) ↔ Named key m s ∨
        ∃ r ∈ chosen second (e.pass config) key s, r.id = m) := by
  have hrun : (notify U second config pid).run (s.at' e) = (notifyPeers U second (e.pass config)
      (allPeers e.machine config.toPeerTable)).run (s.at' e) := by
    have hfound : ¬ ((s.at' e).world.store.keys.runtime.map (·.pid) ≠ some pid) := not_not.mpr hpid
    change Prog.run (if (s.at' e).world.store.keys.runtime.map (·.pid) ≠ some pid then _ else _) _ = _
    rw [if_neg hfound]
    rfl
  obtain ⟨hworld,hpeers⟩ := notifyPeers_alone U second (e.pass config)
    (allPeers_nodup e.machine config.toPeerTable) (s := s.at' e) he.usual hids
  rw [hrun]
  refine ⟨by rw [hworld]; rfl,?_⟩
  intro m hm
  obtain ⟨hmarked,hnamed⟩ := hpeers key m hm
  constructor
  · rw [hmarked]
    simp only [he.enrolled,true_and]
    rfl
  · rw [hnamed]
    simp only [he.enrolled,true_and]
    rfl

/-- What is left to be named among the first thousand rows. -/
def queue (key : Str) (b : MessageRow → Bool) (s : Post) : List MessageRow :=
  (((pendingRows key s.world.store).take 1000).filter b).filter fun r => !marked s key r.id

lemma mem_queue {b : MessageRow → Bool} {s : Post} {r : MessageRow} (h : r ∈ queue key b s) :
    r ∈ pendingRows key s.world.store :=
  List.mem_of_mem_take (List.mem_filter.mp (List.mem_filter.mp h).1).1

lemma queue_nodup (key : Str) (b : MessageRow → Bool) (s : Post) : (queue key b s).Nodup :=
  (((pendingRows_nodup key s.world.store).sublist (List.take_sublist ..)).filter _).filter _

/-- The run: after some passes the queue has been named from its front, twenty in each pass. -/
theorem named_passes {b : MessageRow → Bool} {s : Post} {es : List Scene}
    (hserves : ∀ e ∈ es, e.Serves config key)
    (hb : ∀ e ∈ es, ∀ r ∈ pendingRows key s.world.store, blocked second (e.pass config) r = b r)
    (hpid : s.world.store.keys.runtime.map (·.pid) = some pid)
    (hids : ∀ r ∈ s.world.store.messages.rows, ofChar ':' ∉ r.id) {r : MessageRow}
    (hr : r ∈ pendingRows key s.world.store) :
    Named key r.id (passes U second config pid s es) ↔
      Named key r.id s ∨ r ∈ (queue key b s).take (20*es.length) := by
  induction es generalizing s with
  | nil => simp [passes]
  | cons e es ih =>
    obtain ⟨hstore,hpass⟩ := pass_alone U second
      (hserves e (List.mem_cons_self ..)) hpid hids
    let s' := (notify U second config pid).run (s.at' e)
    have hpending : pendingRows key s'.world.store = pendingRows key s.world.store := by
      rw [hstore]
    have hchosen : chosen second (e.pass config) key s = (queue key b s).take 20 := by
      unfold chosen queue
      congr 2
      refine List.filter_congr fun r hr => ?_
      exact hb e (List.mem_cons_self ..) r (List.mem_of_mem_take hr)
    have hid : ∀ r ∈ pendingRows key s.world.store,
        (∃ r' ∈ chosen second (e.pass config) key s, r'.id = r.id) ↔ r ∈ (queue key b s).take 20 := by
      intro r hr
      rw [hchosen]
      constructor
      · intro ⟨r',hr',hsame⟩
        rwa [← pendingRows_inj (mem_queue (List.mem_of_mem_take hr')) hr hsame]
      · intro hmem
        exact ⟨r,hmem,rfl⟩
    have hcolon : ∀ r ∈ pendingRows key s.world.store, ofChar ':' ∉ r.id :=
      fun r hr => hids r (mem_pendingRows hr).1
    have hleft : ∀ r ∈ pendingRows key s.world.store, (!marked s' key r.id) =
        (decide (r ∉ (queue key b s).take 20) && !marked s key r.id) := by
      intro r hrow
      have hmark := (hpass r.id (hcolon r hrow)).1
      rw [hid r hrow] at hmark
      cases hs : marked s key r.id with
      | true =>
        have hs' : marked s' key r.id = true := hmark.mpr (Or.inl hs)
        rw [hs']
        simp
      | false =>
        rw [hs] at hmark
        by_cases hmem : r ∈ (queue key b s).take 20
        · have hs' : marked s' key r.id = true := hmark.mpr (Or.inr hmem)
          rw [hs']
          simp [hmem]
        · have hs' : marked s' key r.id = false := by
            by_contra hne
            obtain h | h := hmark.mp (Bool.eq_true_of_not_eq_false hne)
            · cases h
            · exact hmem h
          rw [hs']
          simp [hmem]
    have hqueue : queue key b s' = (queue key b s).drop 20 := by
      rw [← filter_not_mem_take (queue_nodup key b s)]
      generalize (queue key b s).take 20 = told at hleft ⊢
      let rows := ((pendingRows key s.world.store).take 1000).filter b
      calc queue key b s'
          = rows.filter fun r => !marked s' key r.id := by unfold queue; rw [hpending]
        _ = rows.filter fun r => decide (r ∉ told) && !marked s key r.id := by
          refine List.filter_congr fun r hr => hleft r ?_
          exact List.mem_of_mem_take (List.mem_filter.mp hr).1
        _ = (queue key b s).filter fun r => decide (r ∉ told) := (List.filter_filter ..).symm
    have hrest := ih (s := s') (fun e' he' => hserves e' (List.mem_cons_of_mem _ he'))
      (by
        rw [hpending]
        exact fun e' he' => hb e' (List.mem_cons_of_mem _ he'))
      (by rwa [hstore]) (by rwa [hstore]) (by rwa [hpending])
    change Named key r.id (passes U second config pid s' es) ↔ _
    rw [hrest,(hpass r.id (hcolon r hr)).2,hid r hr,hqueue,or_assoc,← List.mem_append,
      List.length_cons,show 20*(es.length+1) = 20+20*es.length by omega,List.take_add]

end

/-- What has been named when the passes could have named every blocked message of the peer. -/
lemma named_iff {U : Interp} {second : Time} {config : Config} {pid : Pid} {key : Str}
    {s : Post} {es : List Scene} {rows : List MessageRow}
    (hserves : ∀ e ∈ es, e.Serves config key)
    (hpid : s.world.store.keys.runtime.map (·.pid) = some pid)
    (hvalid : ∀ r ∈ s.world.store.messages.rows, validId r.id = true)
    (hblocked : ∀ e ∈ es,
      (pendingRows key s.world.store).filter (blocked second (e.pass config)) = rows)
    (hlen : es.length = (rows.length+19)/20) {r : MessageRow} (hr : r ∈ rows) :
    Named key r.id (passes U second config pid s es) ↔ Named key r.id s ∨
      marked s key r.id = false ∧ r ∈ (pendingRows key s.world.store).take 1000 := by
  have hpos : 0 < rows.length := List.length_pos_of_mem hr
  cases hes : es with
  | nil =>
    rw [hes] at hlen
    simp only [List.length_nil] at hlen
    omega
  | cons e rest =>
    have hrows := hblocked e (by simp [hes])
    have hb : ∀ e ∈ es, ∀ r ∈ pendingRows key s.world.store,
        blocked second (e.pass config) r = decide (r ∈ rows) := by
      intro e he r hr
      rw [Bool.eq_iff_iff,decide_eq_true_eq,← hblocked e he,List.mem_filter]
      simp [hr]
    have hpending : r ∈ pendingRows key s.world.store := by
      rw [← hrows] at hr
      exact (List.mem_filter.mp hr).1
    have hnamed := named_passes (U := U) hserves hb hpid
      (fun r hr => colon_not_mem_of_validId (hvalid r hr)) hpending
    have hall : (pendingRows key s.world.store).filter (fun r => decide (r ∈ rows)) = rows :=
      (List.filter_congr fun r hr => (hb e (by simp [hes]) r hr).symm).trans hrows
    have hshort : (queue key (fun r => decide (r ∈ rows)) s).length ≤ rows.length := by
      have hsub : (queue key (fun r => decide (r ∈ rows)) s).Sublist rows := by
        conv_rhs => rw [← hall]
        exact List.filter_sublist.trans ((List.take_sublist ..).filter _)
      exact hsub.length_le
    rw [← hes,hnamed,List.take_of_length_le (by omega)]
    have hmem : r ∈ queue key (fun r => decide (r ∈ rows)) s ↔
        marked s key r.id = false ∧ r ∈ (pendingRows key s.world.store).take 1000 := by
      unfold queue
      rw [List.mem_filter,List.mem_filter]
      simp [hr,and_comm]
    rw [hmem]

/-- Of the blocked messages of an enrolled peer, as many passes as their number takes name every one
exactly if each has been named before, or is unmarked and among the thousand oldest that wait. -/
theorem notify_covers_iff (U : Interp) (second : Time) (config : Config) (pid : Pid) (key : Str)
    (s : Post) (es : List Scene) (rows : List MessageRow)
    (hserves : ∀ e ∈ es, e.Serves config key)
    (hpid : s.world.store.keys.runtime.map (·.pid) = some pid)
    (hvalid : ∀ r ∈ s.world.store.messages.rows, validId r.id = true)
    (hblocked : ∀ e ∈ es,
      (pendingRows key s.world.store).filter (blocked second (e.pass config)) = rows)
    (hlen : es.length = (rows.length+19)/20) :
    (∀ r ∈ rows, Named key r.id (passes U second config pid s es)) ↔
      ∀ r ∈ rows, Named key r.id s ∨
        marked s key r.id = false ∧ r ∈ (pendingRows key s.world.store).take 1000 := by
  constructor
  · intro h r hr
    exact (named_iff hserves hpid hvalid hblocked hlen hr).mp (h r hr)
  · intro h r hr
    exact (named_iff hserves hpid hvalid hblocked hlen hr).mpr (h r hr)

/-! Many held messages of one peer. -/

lemma usual_sample : Machine.Usual sampleMachine := by
  constructor
  · intro path
    exact expected_ok _
  · intro root thread
    exact expected_value rfl
  · intro endpoint
    exact expected_ok _
  · intro endpoint
    exact expected_ok _

lemma mod_sixteen_lt (i : ℕ) : i%16 < 16 := Nat.mod_lt _ (by decide)

/-- An id that tells numbers below 4096 apart. -/
def numbered (i : ℕ) : Uuid where
  digits := List.replicate 29 ⟨0,by decide⟩ ++
    [⟨i/256%16,mod_sixteen_lt _⟩,⟨i/16%16,mod_sixteen_lt _⟩,⟨i%16,mod_sixteen_lt i⟩]
  length_eq := rfl

lemma numbered_inj {i j : ℕ} (hi : i < 4096) (hj : j < 4096)
    (h : (numbered i).text = (numbered j).text) : i = j := by
  have hu : numbered i = numbered j := by
    have hparse := Uuid.parse_text (numbered i)
    rw [h,Uuid.parse_text] at hparse
    exact (Option.some.inj hparse).symm
  have hd := congrArg (fun u => u.digits.drop 29) hu
  simp only [numbered,List.drop_left',List.length_replicate,List.cons.injEq,Fin.mk.injEq] at hd
  omega

def heldRow (i : ℕ) : MessageRow :=
  ⟨str "41:9",(numbered i).text,str "hi",.bypass,[],.held,[],i⟩

lemma heldRow_inj {i j : ℕ} (hi : i < 4096) (hj : j < 4096)
    (h : (heldRow i).key = (heldRow j).key) : i = j :=
  numbered_inj hi hj (congrArg Prod.snd h)

/-- The oldest comes first. -/
def heldRows (n : ℕ) : List MessageRow := (List.range n).map heldRow

lemma heldRows_nodup {n : ℕ} (hn : n ≤ 4096) : ((heldRows n).map MessageRow.key).Nodup := by
  unfold heldRows
  rw [List.map_map]
  refine List.Nodup.map_on ?_ List.nodup_range
  intro i hi j hj h
  have hi := List.mem_range.mp hi
  have hj := List.mem_range.mp hj
  exact heldRow_inj (by omega) (by omega) h

/-- A listener with that many held messages, and no advisory yet. -/
def heldPost (n : ℕ) (hn : n ≤ 4096) : Post where
  world :=
    { store :=
        { Store.empty with
          messages := ⟨heldRows n,heldRows_nodup hn⟩
          keys := { runtime := some ⟨7,none,[],1⟩ } }
      wire := []
      machine := sampleMachine }
  snapshot := {}
  recovery := none
  fresh := []
  notices := []
  marks := []
  attempts := []

def heldScene : Scene := ⟨sampleMachine,{},none,sampleId.text⟩

lemma heldScene_serves : heldScene.Serves sampleConfig (str "41:9") :=
  ⟨usual_sample,by decide +kernel⟩

lemma mem_heldRows {n : ℕ} {r : MessageRow} (h : r ∈ heldRows n) : ∃ i < n, r = heldRow i := by
  obtain ⟨i,hi,rfl⟩ := List.mem_map.mp h
  exact ⟨i,List.mem_range.mp hi,rfl⟩

lemma pendingRows_held (n : ℕ) (hn : n ≤ 4096) :
    pendingRows (str "41:9") (heldPost n hn).world.store = heldRows n := by
  have hall : (heldRows n).filter (fun r =>
      r.peer = str "41:9" && (r.status = .received || r.status = .held)) = heldRows n := by
    rw [List.filter_eq_self]
    intro r hr
    obtain ⟨i,-,rfl⟩ := mem_heldRows hr
    simp [heldRow]
  have hsorted : (heldRows n).Pairwise fun a b => a.created ≤ b.created := by
    unfold heldRows
    rw [List.pairwise_map]
    refine List.pairwise_lt_range.imp ?_
    intro i j hij
    exact Int.ofNat_le.mpr hij.le
  change ((heldRows n).filter _).insertionSort _ = _
  rw [hall]
  exact List.Pairwise.insertionSort_eq hsorted

lemma blocked_held (n : ℕ) (hn : n ≤ 4096) :
    (pendingRows (str "41:9") (heldPost n hn).world.store).filter
      (blocked 1 (heldScene.pass sampleConfig)) = heldRows n := by
  rw [pendingRows_held,List.filter_eq_self]
  intro r hr
  obtain ⟨i,-,rfl⟩ := mem_heldRows hr
  simp [blocked,overdue,heldRow]

lemma validId_held (n : ℕ) (hn : n ≤ 4096) :
    ∀ r ∈ (heldPost n hn).world.store.messages.rows, validId r.id = true := by
  intro r hr
  obtain ⟨i,-,rfl⟩ := mem_heldRows hr
  exact validId_text _

/-- A thousand of them are all named in fifty passes, the youngest too. -/
theorem notify_covers_iff_thousand : Named (str "41:9") (heldRow 999).id
    (passes .ascii 1 sampleConfig 7 (heldPost 1000 (by omega)) (List.replicate 50 heldScene)) := by
  have hlast : heldRow 999 ∈ heldRows 1000 :=
    List.mem_map_of_mem (List.mem_range.mpr (by omega))
  refine (notify_covers_iff .ascii 1 sampleConfig 7 (str "41:9") _ _ (heldRows 1000) ?_ rfl
    (validId_held 1000 (by omega)) ?_ ?_).mpr ?_ _ hlast
  · intro e he
    rw [List.eq_of_mem_replicate he]
    exact heldScene_serves
  · intro e he
    rw [List.eq_of_mem_replicate he]
    exact blocked_held 1000 (by omega)
  · simp [heldRows]
  · intro r hr
    refine Or.inr ⟨rfl,?_⟩
    rw [pendingRows_held,List.take_of_length_le (by simp [heldRows])]
    exact hr

/-- With one more the youngest is left out, although nothing has been sent before. -/
theorem notify_leaves_one : ¬ ∀ (U : Interp) (second : Time) (config : Config) (pid : Pid)
    (key : Str) (s : Post) (es : List Scene) (rows : List MessageRow),
    (∀ e ∈ es, e.Serves config key) →
    s.world.store.keys.runtime.map (·.pid) = some pid →
    (∀ r ∈ s.world.store.messages.rows, validId r.id = true) →
    (∀ e ∈ es,
      (pendingRows key s.world.store).filter (blocked second (e.pass config)) = rows) →
    es.length = (rows.length+19)/20 → s.marks = [] → s.attempts = [] →
    ∀ r ∈ rows, Named key r.id (passes U second config pid s es) := by
  intro h
  have hserves : ∀ e ∈ List.replicate 51 heldScene, e.Serves sampleConfig (str "41:9") := by
    intro e he
    rw [List.eq_of_mem_replicate he]
    exact heldScene_serves
  have hblocked : ∀ e ∈ List.replicate 51 heldScene,
      (pendingRows (str "41:9") (heldPost 1001 (by omega)).world.store).filter
        (blocked 1 (e.pass sampleConfig)) = heldRows 1001 := by
    intro e he
    rw [List.eq_of_mem_replicate he]
    exact blocked_held 1001 (by omega)
  have hlen : (List.replicate 51 heldScene).length = ((heldRows 1001).length+19)/20 := by
    simp [heldRows]
  have hlast : heldRow 1000 ∈ heldRows 1001 :=
    List.mem_map_of_mem (List.mem_range.mpr (by omega))
  have hall := h .ascii 1 sampleConfig 7 (str "41:9") _ _ _ hserves rfl
    (validId_held 1001 (by omega)) hblocked hlen rfl rfl _ hlast
  obtain ⟨a,ha,-⟩ | ⟨-,hfirst⟩ := (named_iff hserves rfl (validId_held 1001 (by omega)) hblocked
    hlen hlast).mp hall
  · cases ha
  · rw [pendingRows_held] at hfirst
    have htake : (heldRows 1001).take 1000 = heldRows 1000 := by
      unfold heldRows
      rw [← List.map_take,List.take_range]
      rfl
    rw [htake] at hfirst
    obtain ⟨i,hi,heq⟩ := mem_heldRows hfirst
    have := heldRow_inj (by omega) (by omega) (congrArg MessageRow.key heq)
    omega

end PeerChat.Notify
