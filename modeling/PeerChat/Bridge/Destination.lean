import PeerChat.Bridge.Enrollment
import PeerChat.Interleaving.Log
import PeerChat.System.Frame
import PeerChat.System.Made
import PeerChat.Wire.RoundTrip

/-! The default destination. A start reads the configuration, and later writes the whole of it back
in several accesses; `connect` changes the default in a transaction of its own. -/
namespace PeerChat
open Python Wire Interleaving

/-- Both machines resolve paths in the same way. -/
structure SamePaths (m m' : Machine) : Prop where
  resolve : m'.resolve = m.resolve
  isAbsolute : m'.isAbsolute = m.isAbsolute

lemma SamePaths.normalise {m m' : Machine} (h : SamePaths m m') :
    PeerChat.normalise m' = PeerChat.normalise m := by
  funext r
  simp only [PeerChat.normalise,absoluteRoot,codexKey,canonicalHome,h.resolve,h.isAbsolute]

lemma SamePaths.allPeers {m m' : Machine} (h : SamePaths m m') :
    PeerChat.allPeers m' = PeerChat.allPeers m := by
  funext t
  simp only [PeerChat.allPeers,h.normalise]

/-- May the access write the configuration? -/
def Op.writesConfig (l : Op) : Bool := MetaKey.config ∈ l.writes

/-- The accesses that may write the configuration. -/
def configWrites (past : List (Step World Op)) : List (Step World Op) :=
  past.filter fun t => t.label.writesConfig

lemma config_frame {l : Op} (w : World) (h : l.writesConfig = false) :
    (apply l w).store.keys.config = w.store.keys.config := by
  have hne : MetaKey.config ∉ l.writes → MetaKey.config.Same w.store.keys
      (apply l w).store.keys := apply_frame l w
  exact hne (by simpa [Op.writesConfig] using h)

/-! What a start writes. -/

variable {m : Machine}

/-- The write of the peer table, after a write of `C`; it leaves `R`. -/
def PeersWrite (m : Machine) (C : Config) (t : Step World Op) (R : Config) : Prop :=
  (R = { C with peers := some (allPeers m C.toPeerTable) } ∧ t.label = .key (.putConfig R)) ∨
  ∃ k r r₀, normalise m r₀ = some (k,r) ∧ t.label = .key (.enroll k r) ∧
    R = t.post.store.keys.config.getD C

/-- The destination of a configuration that names none. -/
def firstPeer (m : Machine) (c : Config) : Option Str :=
  (allPeers m c.toPeerTable).head?.map (·.1)

/-- A default is written where `R` has none. -/
def DefaultWrite (m : Machine) (R : Config) (ts : List (Step World Op)) : Prop :=
  if truthy R.defaultPeer then ts = []
  else ∃ w, ts = [⟨.key (.putConfig { R with defaultPeer := firstPeer m R }),w⟩]

/-- What a start writes that has read `c`: nothing, or its changed copy, the table and maybe a
default. -/
inductive Started (m : Machine) (c : Config) : List (Step World Op) → Prop
  | untouched : Started m c []
  | written {C R : Config} {w : World} {t : Step World Op} {ts : List (Step World Op)}
      (table : C.toPeerTable = c.toPeerTable) (default : C.defaultPeer = c.defaultPeer)
      (peers : PeersWrite m C t R) (last : DefaultWrite m R ts) :
      Started m c (⟨.key (.putConfig C),w⟩ :: t :: ts)

/-- A program that writes no configuration leaves the writes as they are. -/
lemma still_traced {α : Type} {p : Code α} (hp : p.Emits fun l => l.writesConfig = false)
    (past : List (Step World Op)) :
    p.Traced (fun _ _ => True) (fun u _ => past <+: u ∧ configWrites u = configWrites past) past := by
  refine Prog.Traced.of_emits (K := fun u => past <+: u ∧ configWrites u = configWrites past) hp ?_
    ⟨List.prefix_refl _,rfl⟩
  rintro u l s ⟨hu,hw⟩ hl
  refine ⟨trivial,hu.trans (List.prefix_append ..),?_⟩
  rw [configWrites,List.filter_append,List.filter_cons_of_neg (by simpa using hl)]
  simpa [configWrites] using hw

/-- The writes of the table and of the default follow those before. -/
lemma writePeers_traced {requested : Option (Str × PeerRecord)} {config : Config}
    {past : List (Step World Op)}
    (hreq : ∀ k r, requested = some (k,r) → (∀ t ∈ past, SamePaths m t.pre.machine) →
      ∃ r₀, normalise m r₀ = some (k,r)) :
    (writePeers requested config).Traced (fun _ _ => True) (fun u _ => past <+: u ∧
      ((∀ t ∈ u, SamePaths m t.pre.machine) → ∃ t R ts,
        configWrites u = configWrites past ++ t :: ts ∧ PeersWrite m config t R ∧
          DefaultWrite m R ts)) past := by
  refine Prog.Traced.bind (P := fun u R => past <+: u ∧
      ((∀ t ∈ u, SamePaths m t.pre.machine) → ∃ t, configWrites u = configWrites past ++ [t] ∧
        PeersWrite m config t R)) ?_ fun u R hu => ?_
  · cases requested with
    | some requested =>
      obtain ⟨k,r⟩ := requested
      intro w
      refine ⟨trivial,List.prefix_append ..,fun hpaths => ⟨⟨.key (.enroll k r),w⟩,?_,?_⟩⟩
      · rw [configWrites,List.filter_append]
        rfl
      · obtain ⟨r₀,hr⟩ := hreq k r rfl fun t ht => hpaths t (List.mem_append_left _ ht)
        exact Or.inr ⟨k,r,r₀,hr,rfl,rfl⟩
    | none =>
      intro w
      refine ⟨trivial,fun w₁ => ⟨trivial,?_,fun hpaths => ?_⟩⟩
      · exact (List.prefix_append ..).trans (List.prefix_append ..)
      · let C : Config := { config with peers := some (allPeers w.machine config.toPeerTable) }
        refine ⟨⟨.key (.putConfig C),w₁⟩,?_,Or.inl ⟨?_,rfl⟩⟩
        · rw [configWrites,List.filter_append,List.filter_append]
          simp only [List.append_assoc]
          rfl
        · rw [(hpaths ⟨.look .machine,w⟩ (by simp)).allPeers]
  · obtain ⟨hpre,hwrites⟩ := hu
    split_ifs with ht
    · refine ⟨hpre,fun hpaths => ?_⟩
      obtain ⟨t,hw,hpeers⟩ := hwrites hpaths
      exact ⟨t,R,[],hw,hpeers,by rw [DefaultWrite,if_pos ht]⟩
    · intro w
      refine ⟨trivial,fun w₁ => ⟨trivial,?_,fun hpaths => ?_⟩⟩
      · exact hpre.trans ((List.prefix_append ..).trans (List.prefix_append ..))
      · obtain ⟨t,hw,hpeers⟩ := hwrites fun t ht => hpaths t (by simp [ht])
        have hm := hpaths ⟨.look .machine,w⟩ (by simp)
        let D : Config := { R with defaultPeer := firstPeer m R }
        refine ⟨t,R,[⟨.key (.putConfig D),w₁⟩],?_,hpeers,?_⟩
        · rw [configWrites,List.filter_append,List.filter_append]
          change configWrites u ++ _ ++ _ = _
          rw [hw,hm.allPeers]
          simp only [List.append_assoc]
          rfl
        · rw [DefaultWrite,if_neg ht]
          exact ⟨w₁,rfl⟩

/-- A start that has read `c` and has written nothing yet ends with such writes. -/
def Writes (m : Machine) (c : Config) (past : List (Step World Op)) {α : Type}
    (u : List (Step World Op)) (_ : α) : Prop :=
  past <+: u ∧ ((∀ t ∈ u, SamePaths m t.pre.machine) → Started m c (configWrites u))

lemma writeBridge_written {args : StartArgs} {previous : Option Config} {c config : Config}
    {requested : Option (Str × PeerRecord)} {runtime : Option Runtime} {live : Bool}
    {past : List (Step World Op)} (hw : configWrites past = [])
    (htable : config.toPeerTable = c.toPeerTable) (hdefault : config.defaultPeer = c.defaultPeer)
    (hreq : ∀ k r, requested = some (k,r) → (∀ t ∈ past, SamePaths m t.pre.machine) →
      ∃ r₀, normalise m r₀ = some (k,r)) :
    (writeBridge args previous requested config runtime live).Traced (fun _ _ => True)
      (Writes m c past) past := by
  have howner := writeOwner_emits (P := fun l => l.writesConfig = false) rfl (fun _ => rfl) previous
    config.ownerIdentity
  refine Prog.Traced.bind (still_traced howner past) fun u₁ _ hu₁ => ?_
  obtain ⟨h₁,hw₁⟩ := hu₁
  intro w
  refine ⟨trivial,?_⟩
  refine Prog.Traced.bind (p := writePeers requested config) (writePeers_traced fun k r he hp =>
    hreq k r he fun t ht => hp t (List.mem_append_left _ (h₁.subset ht))) fun u₂ _ hu₂ => ?_
  obtain ⟨h₂,hw₂⟩ := hu₂
  have hmode := writeMode_emits (P := fun l => l.writesConfig = false) (fun _ => rfl) args previous
  refine Prog.Traced.bind (still_traced hmode u₂) fun u₃ _ hu₃ => ?_
  obtain ⟨h₃,hw₃⟩ := hu₃
  have hwindow := writeWindow_emits (P := fun l => l.writesConfig = false)
    (fun key _ => by cases key <;> rfl) args previous
  refine Prog.Traced.bind (still_traced hwindow u₃) fun u₄ _ hu₄ => ?_
  obtain ⟨h₄,hw₄⟩ := hu₄
  have hseed := seedSavedHook_emits (P := fun l => l.writesConfig = false) rfl rfl fun _ _ _ => rfl
  refine Prog.Traced.bind (still_traced hseed u₄) fun u₅ _ hu₅ => ?_
  obtain ⟨h₅,hw₅⟩ := hu₅
  have hreplace := replaceListener_emits (P := fun l => l.writesConfig = false) rfl (fun _ => rfl)
    runtime live
  refine (still_traced hreplace u₅).imp fun u₆ _ hu₆ => ?_
  obtain ⟨h₆,hw₆⟩ := hu₆
  have hlate : u₂ <+: u₆ := h₃.trans (h₄.trans (h₅.trans h₆))
  refine ⟨(h₁.trans (List.prefix_append ..)).trans (h₂.trans hlate),fun hpaths => ?_⟩
  obtain ⟨t,R,ts,hwrites,hpeers,hlast⟩ := hw₂ fun t ht => hpaths t (hlate.subset ht)
  have hall : configWrites u₆ = ⟨.key (.putConfig config),w⟩ :: t :: ts := by
    rw [hw₆,hw₅,hw₄,hw₃,hwrites,configWrites,List.filter_append]
    change configWrites u₁ ++ _ ++ _ = _
    rw [hw₁,hw]
    rfl
  rw [hall]
  exact .written htable hdefault hpeers hlast

/-- A requested peer is in the normal form of the record of the arguments. -/
lemma checkRequested_normal {m : Machine} {args : StartArgs} {previous : Option Config} {k : Str}
    {r : PeerRecord} (h : checkRequested m args previous = .ok (some (k,r))) :
    ∃ r₀, args.requested = some (.ok r₀) ∧ normalise m r₀ = some (k,r) := by
  simp only [checkRequested] at h
  split at h
  · cases h
  · rename_i record hrequested
    cases hn : normalise m record with
    | none =>
      rw [hn] at h
      cases h
    | some p =>
      rw [hn] at h
      cases h
      exact ⟨record,hrequested,hn⟩
  · split at h
    · split_ifs at h
      cases h
    · cases h

lemma startChecked_written {args : StartArgs} {c : Config} {past : List (Step World Op)}
    (hw : configWrites past = []) : (startChecked args (some c)).Traced (fun _ _ => True)
      (Writes m c past) past := by
  have hlook : ∀ {u : List (Step World Op)} (what : Look) (s : World), configWrites u = [] →
      configWrites (u ++ [⟨.look what,s⟩]) = [] := by
    intro u what s hu
    rw [configWrites,List.filter_append]
    change configWrites u ++ _ = []
    rw [hu]
    rfl
  -- a start that gives up has written nothing
  have hend : ∀ {u : List (Step World Op)} (b : Bool), past <+: u → configWrites u = [] →
      Writes m c past u b := by
    intro u b hu hnone
    refine ⟨hu,fun _ => ?_⟩
    rw [hnone]
    exact .untouched
  intro s
  have h₁ := hlook .machine s hw
  have hp₁ : past <+: past ++ [⟨.look .machine,s⟩] := List.prefix_append ..
  refine ⟨trivial,?_⟩
  simp only [Prog.bind]
  split
  · exact hend _ hp₁ h₁
  · rename_i owner identity _
    intro s₁
    refine ⟨trivial,fun s₂ => ⟨trivial,?_⟩⟩
    have h₂ := hlook .machine s₂ (hlook .runtime s₁ h₁)
    have hp₂ : past <+: ((past ++ [⟨.look .machine,s⟩]) ++ [⟨.look .runtime,s₁⟩]) ++
        [⟨.look .machine,s₂⟩] := (hp₁.trans (List.prefix_append ..)).trans (List.prefix_append ..)
    simp only [Prog.bind]
    split_ifs
    · exact hend _ hp₂ h₂
    · split
      · rename_i requested executable hreq _
        split
        · exact hend _ hp₂ h₂
        · let config := startConfig s₂.machine args (some c) owner identity executable
          refine (@writeBridge_written m args (some c) c config requested _ _ _ h₂ rfl rfl
            fun k r he hpaths => ?_).imp fun u _ hu => ⟨hp₂.trans hu.1,hu.2⟩
          subst he
          have hm := hpaths ⟨.look .machine,s₂⟩ (by simp)
          obtain ⟨r₀,-,hr₀⟩ := checkRequested_normal hreq
          exact ⟨r₀,hm.normalise ▸ hr₀⟩
      · exact hend _ hp₂ h₂

/-- The past of a start begins with its read of the configuration. -/
def Reads (w : World) (past : List (Step World Op)) : Prop := [⟨.look .config,w⟩] <+: past

/-- Everything that a start writes follows from the configuration that it has read. -/
lemma startBridge_written (m : Machine) (args : StartArgs) : (startBridge args).Traced
    (fun _ _ => True) (fun u _ => ∃ w, Reads w u ∧ ∀ c, w.store.keys.config = some c →
      (∀ t ∈ u, SamePaths m t.pre.machine) → Started m c (configWrites u)) [] := by
  intro w
  refine ⟨trivial,?_⟩
  cases hc : w.store.keys.config with
  | none =>
    refine (Prog.Traced.extends _ _).imp fun u _ hu => ⟨w,hu,fun c he => ?_⟩
    cases hc.symm.trans he
  | some c =>
    have hfrom : ∀ {past : List (Step World Op)}, [⟨.look .config,w⟩] <+: past →
        configWrites past = [] → (startChecked args (some c)).Traced (fun _ _ => True) (fun u _ =>
          ∃ w, Reads w u ∧ ∀ c, w.store.keys.config = some c →
            (∀ t ∈ u, SamePaths m t.pre.machine) → Started m c (configWrites u)) past := by
      intro past hpast hw
      refine (startChecked_written (m := m) hw).imp fun u _ hu => ⟨w,hpast.trans hu.1,?_⟩
      rintro c' he hpaths
      obtain rfl : c = c' := Option.some.inj (hc.symm.trans he)
      exact hu.2 hpaths
    simp only [Prog.bind,hc]
    split_ifs
    · refine fun w₁ => ⟨trivial,?_⟩
      simp only [Prog.bind]
      split_ifs
      · exact ⟨w,List.prefix_append [_] [_],fun c' _ _ => .untouched⟩
      · exact @hfrom [⟨.look .config,w⟩,⟨.look .stop,w₁⟩] (List.prefix_append [_] [_]) rfl
    · exact hfrom (List.prefix_refl _) rfl

/-! What becomes of the configuration. -/

/-- The write of a whole configuration. -/
def Op.putsConfig : Op → Bool
  | .key (.putConfig _) => true
  | _ => false

/-- The keys that the steps enroll. -/
def enrolledBy (ts : List (Step World Op)) : List Str := ts.filterMap fun t =>
  match t.label with
  | .key (.enroll k _) => some k
  | _ => none

/-- The destination that a start which has read `c` leaves by itself. -/
def startDefault (m : Machine) (c : Config) : Option Str :=
  if truthy c.defaultPeer then c.defaultPeer else firstPeer m c

/-- The table has the peers of the other in their order, and may have others after them. -/
structure Extends (m : Machine) (c c' : Config) (more : List Str) : Prop where
  keys : ∀ k, k ∈ Dict.keys (allPeers m c.toPeerTable) ∨ k ∈ more →
    k ∈ Dict.keys (allPeers m c'.toPeerTable)
  first : allPeers m c.toPeerTable ≠ [] → firstPeer m c' = firstPeer m c

lemma Extends.of_table {c c' : Config} (h : allPeers m c'.toPeerTable = allPeers m c.toPeerTable) :
    Extends m c c' [] where
  keys k hk := by
    rw [h]
    simpa using hk
  first _ := by rw [firstPeer,firstPeer,h]

lemma Extends.of_set {c c' : Config} {k : Str} {r : PeerRecord}
    (h : allPeers m c'.toPeerTable = Dict.set (allPeers m c.toPeerTable) k r) :
    Extends m c c' [k] where
  keys j hj := by
    rw [h,Dict.mem_keys_set]
    simpa [or_comm] using hj
  first hne := by
    rw [firstPeer,firstPeer,h]
    cases hp : allPeers m c.toPeerTable with
    | nil => exact absurd hp hne
    | cons p ps =>
      by_cases hk : k ∈ Dict.keys (p::ps)
      · rw [Dict.set_of_mem hk,List.map_cons,List.head?_cons,List.head?_cons]
        simp only [Option.map_some,Option.some.injEq]
        split_ifs with he
        · exact he.symm
        · rfl
      · rw [Dict.set_of_not_mem hk]
        rfl

/-- The write of the table, where the saved one is the one that the start has copied. -/
lemma PeersWrite.post (hm : StablePaths m) {C R X : Config} {t : Step World Op}
    (h : PeersWrite m C t R) (hpaths : SamePaths m t.pre.machine)
    (hX : t.pre.store.keys.config = some X) (htable : X.toPeerTable = C.toPeerTable) :
    t.post.store.keys.config = some R ∧
      R.defaultPeer = (if t.label.putsConfig then C.defaultPeer else X.defaultPeer) ∧
      Extends m C R (enrolledBy [t]) := by
  obtain ⟨l,w⟩ := t
  rcases h with ⟨rfl,hl⟩ | ⟨k,r,r₀,hr,hl,hR⟩
  · obtain rfl : l = _ := hl
    refine ⟨rfl,rfl,.of_table ?_⟩
    exact (allPeers_canonical hm C.toPeerTable).allPeers_eq C.peer
  · obtain rfl : l = .key (.enroll k r) := hl
    have hpost : (Step.post (⟨.key (.enroll k r),w⟩ : Step World Op)).store.keys.config =
        some (X.withTable (enrollTable w.machine k r X.toPeerTable)) := by
      change (PeerChat.enroll w.machine k r w.store.keys).config = _
      rw [PeerChat.enroll]
      change w.store.keys.config.map _ = _
      rw [hX]
      rfl
    rw [hpost,Option.getD_some] at hR
    subst hR
    refine ⟨hpost,rfl,.of_set (r := r) ?_⟩
    have henroll := allPeers_enrollRecord hm C.toPeerTable hr
    simp only [enrollRecord,hr] at henroll
    rw [← henroll,htable]
    change allPeers m (enrollTable w.machine k r C.toPeerTable) = _
    rw [enrollTable,enrollTable,hpaths.allPeers]

/-- The saved configuration. -/
def savedConfig (w : World) : Option Config := w.store.keys.config

lemma truthy_some {key : Str} (h : key ≠ []) : truthy (some key) = true := by simpa [truthy] using h

/-- What an update of the default makes of a saved configuration. -/
lemma update_post {key : Str} {u : World} {c : Config} (h : savedConfig u = some c) :
    savedConfig (Step.post (⟨.key (.setDefaultPeer key),u⟩ : Step World Op)) =
      some { c with defaultPeer := some key } := by
  change (PeerChat.setDefaultPeer key u.store.keys).config = _
  change u.store.keys.config = _ at h
  rw [PeerChat.setDefaultPeer,h]
  rfl

/-- With an update of the default somewhere among the writes of a start: the default is the one of
the start where it writes a whole configuration afterwards, and otherwise the one of the update;
and no peer is lost. -/
lemma Started.outcome (hm : StablePaths m) {c read : Config} {key : Str} {u : World}
    {A B : List (Step World Op)} {last : Option Config} (hstart : Started m read (A ++ B))
    (htable : read.toPeerTable = c.toPeerTable) (hkey : key ≠ [])
    (hne : allPeers m c.toPeerTable ≠ []) (hpaths : ∀ t ∈ A ++ B, SamePaths m t.pre.machine)
    (hchain : Chained savedConfig (some c) (A ++ ⟨.key (.setDefaultPeer key),u⟩ :: B) last) :
    ∃ c', last = some c' ∧
      c'.defaultPeer = (if B.any (·.label.putsConfig) then startDefault m read else some key) ∧
      ∀ k, k ∈ Dict.keys (allPeers m c.toPeerTable) ∨ k ∈ enrolledBy (A ++ B) →
        k ∈ Dict.keys (allPeers m c'.toPeerTable) := by
  generalize hws : A ++ B = ws at hstart
  cases hstart with
  | untouched =>
    obtain ⟨rfl,rfl⟩ := List.append_eq_nil_iff.mp hws
    obtain ⟨hu,rfl⟩ := hchain
    refine ⟨_,update_post hu,rfl,fun k hk => ?_⟩
    simpa [enrolledBy] using hk
  | @written C R w t ts hCtable hCdefault hpeers hlast =>
    have hC : C.toPeerTable = c.toPeerTable := hCtable.trans htable
    have ht : SamePaths m t.pre.machine := hpaths t (by rw [hws]; simp)
    -- what follows the table write
    have hts : truthy R.defaultPeer = true ∧ ts = [] ∨ ¬ truthy R.defaultPeer = true ∧
        ∃ w, ts = [⟨.key (.putConfig { R with defaultPeer := firstPeer m R }),w⟩] := by
      rw [DefaultWrite] at hlast
      split_ifs at hlast with h
      · exact Or.inl ⟨h,hlast⟩
      · exact Or.inr ⟨h,hlast⟩
    -- the table write finds the copy, with or without the update
    have hpost : ∀ X, savedConfig t.pre = some X → X.toPeerTable = C.toPeerTable →
        savedConfig t.post = some R ∧
        R.defaultPeer = (if t.label.putsConfig then C.defaultPeer else X.defaultPeer) ∧
        Extends m C R (enrolledBy [t]) := fun X hX hXC => hpeers.post hm ht hX hXC
    have hkeys : Extends m C R (enrolledBy [t]) → ∀ c' : Config, c'.toPeerTable = R.toPeerTable →
        ∀ k, k ∈ Dict.keys (allPeers m c.toPeerTable) ∨
          k ∈ enrolledBy (⟨.key (.putConfig C),w⟩ :: t :: ts) →
          k ∈ Dict.keys (allPeers m c'.toPeerTable) := by
      intro hext c' hc' k hk
      have henrolled : enrolledBy (⟨.key (.putConfig C),w⟩ :: t :: ts) = enrolledBy [t] := by
        rcases hts with ⟨-,rfl⟩ | ⟨-,w',rfl⟩
        · rfl
        · cases t with
          | mk l s => simp [enrolledBy,List.filterMap_cons]
      rw [hc']
      rw [henrolled,← hC] at hk
      exact hext.keys k hk
    -- the default that the start leaves where it has not met the update
    have hown : R.defaultPeer = C.defaultPeer → Extends m C R (enrolledBy [t]) →
        startDefault m read = if truthy R.defaultPeer then R.defaultPeer else firstPeer m R := by
      intro hR hext
      have hfirst : firstPeer m R = firstPeer m read := by
        rw [hext.first (by rwa [hC]),firstPeer,firstPeer,hCtable]
      rw [startDefault,hR,hCdefault,hfirst]
    have hunmet : R.defaultPeer = C.defaultPeer → Extends m C R (enrolledBy [t]) →
        Chained savedConfig (some R) ts last → ∃ c', last = some c' ∧
          c'.defaultPeer = startDefault m read ∧ c'.toPeerTable = R.toPeerTable := by
      intro hRC hext hrest
      rcases hts with ⟨htruthy,rfl⟩ | ⟨htruthy,w',rfl⟩
      · obtain rfl : last = some R := hrest
        refine ⟨R,rfl,?_,rfl⟩
        rw [hown hRC hext,if_pos htruthy]
      · obtain ⟨-,rfl⟩ := hrest
        refine ⟨_,rfl,?_,rfl⟩
        rw [hown hRC hext,if_neg htruthy]
    rcases List.append_eq_cons_iff.mp hws with ⟨rfl,rfl⟩ | ⟨A',rfl,hA'⟩
    · -- the update precedes every write
      obtain ⟨-,-,htpre,hrest⟩ := hchain
      obtain ⟨htpost,hR,hext⟩ := hpost C htpre rfl
      rw [htpost] at hrest
      obtain ⟨c',rfl,hdefault,hc'⟩ := hunmet (hR.trans (ite_self _)) hext hrest
      refine ⟨c',rfl,?_,hkeys hext c' hc'⟩
      rw [if_pos (by rfl),hdefault]
    · rcases List.append_eq_cons_iff.mp hA'.symm with ⟨rfl,rfl⟩ | ⟨A'',rfl,hA''⟩
      · -- it comes between the copy and the table
        obtain ⟨-,hupre,htpre,hrest⟩ := hchain
        rw [update_post (show savedConfig u = some C from hupre)] at htpre
        obtain ⟨htpost,hR,hext⟩ := hpost _ htpre rfl
        rw [htpost] at hrest
        cases hput : t.label.putsConfig with
        | true =>
          have hany : (t::ts).any (fun t => t.label.putsConfig) = true := by simp [hput]
          have hRC : R.defaultPeer = C.defaultPeer := by rw [hR,if_pos hput]
          obtain ⟨c',rfl,hdefault,hc'⟩ := hunmet hRC hext hrest
          refine ⟨c',rfl,?_,hkeys hext c' hc'⟩
          rw [if_pos hany,hdefault]
        | false =>
          have hRkey : R.defaultPeer = some key := by rw [hR,if_neg (by simp [hput])]
          rcases hts with ⟨-,rfl⟩ | ⟨htruthy,-⟩
          · obtain rfl : last = some R := hrest
            refine ⟨R,rfl,?_,hkeys hext R rfl⟩
            rw [if_neg (by simp [hput]),hRkey]
          · exact absurd (hRkey ▸ truthy_some hkey) htruthy
      · obtain ⟨-,htpre,hrest⟩ := hchain
        obtain ⟨htpost,hR,hext⟩ := hpost C htpre rfl
        have hRC : R.defaultPeer = C.defaultPeer := hR.trans (ite_self _)
        rw [htpost] at hrest
        rcases hts with ⟨-,rfl⟩ | ⟨htruthy,w',rfl⟩
        · -- it follows the last write
          obtain ⟨rfl,rfl⟩ := List.append_eq_nil_iff.mp hA''.symm
          obtain ⟨hupre,rfl⟩ := hrest
          exact ⟨_,update_post hupre,rfl,hkeys hext _ rfl⟩
        · rcases List.append_eq_singleton_iff.mp hA''.symm with ⟨rfl,rfl⟩ | ⟨rfl,rfl⟩
          · -- it comes between the table and the default
            obtain ⟨-,-,rfl⟩ := hrest
            refine ⟨_,rfl,?_,hkeys hext _ rfl⟩
            rw [if_pos (by rfl),hown hRC hext,if_neg htruthy]
          · obtain ⟨-,hupre,rfl⟩ := hrest
            exact ⟨_,update_post hupre,rfl,hkeys hext _ rfl⟩

/-! Runs. -/

/-- A peer's key is not empty. -/
lemma normalise_key_ne {r : PeerRecord} {p : Str × PeerRecord} (h : normalise m r = some p) :
    p.1 ≠ [] := by
  simp only [normalise] at h
  split at h
  · cases h
  · split at h
    · split_ifs at h
      obtain ⟨key,hkey,rfl⟩ := Option.map_eq_some_iff.mp h
      obtain ⟨bytes,-,rfl⟩ := Option.map_eq_some_iff.mp hkey
      simp [str]
    · cases h
  · split at h
    · split_ifs at h with hv
      cases h
      exact hv.1
    · cases h

lemma key_ne_nil (hm : StablePaths m) {t : PeerTable} {k : Str}
    (h : k ∈ Dict.keys (allPeers m t)) : k ≠ [] := by
  obtain ⟨p,hp,rfl⟩ := List.mem_map.mp h
  exact normalise_key_ne ((allPeers_canonical hm t).normal p hp)

/-- Where no other writes the configuration, the accesses of a run that do are the start's own. -/
lemma own_configWrites {t : List (Entry World Op)}
    (h : ∀ e ∈ t, e.own = false → e.step.label.writesConfig = false) :
    ((t.map (·.step)).filter fun st => st.label.writesConfig) = configWrites (ownSteps t) := by
  induction t with
  | nil => rfl
  | cons e t ih =>
    have hrest := ih fun e he => h e (List.mem_cons_of_mem _ he)
    obtain ⟨own,st⟩ := e
    cases own with
    | true =>
      simp only [ownSteps_cons_own,List.map_cons,configWrites,List.filter_cons] at hrest ⊢
      rw [hrest]
    | false =>
      have hst := h ⟨false,st⟩ (List.mem_cons_self ..) rfl
      rw [ownSteps_cons_foreign,List.map_cons,List.filter_cons_of_neg (by simpa using hst),hrest]

/-- Where no other writes the configuration, the first own access finds it as it was. -/
lemma first_own {α : Type} {p q : Code α} {s s' : World} {t : List (Entry World Op)}
    {Foreign : Op → Prop} (h : Exec Foreign p s t q s')
    (hquiet : ∀ e ∈ t, e.own = false → e.step.label.writesConfig = false) {st : Step World Op}
    (hst : (ownSteps t).head? = some st) : savedConfig st.pre = savedConfig s := by
  induction h with
  | refl => cases hst
  | own _ _ =>
    cases hst
    rfl
  | @foreign p l s t q s' _ _ ih =>
    rw [ih (fun e he => hquiet e (List.mem_cons_of_mem _ he)) hst]
    exact config_frame s (hquiet ⟨false,⟨l,s⟩⟩ (List.mem_cons_self ..) rfl)

lemma enrolledBy_configWrites (ts : List (Step World Op)) :
    enrolledBy (configWrites ts) = enrolledBy ts := by
  rw [enrolledBy,configWrites,List.filterMap_filter,enrolledBy]
  congr 1
  funext t
  cases t.label with
  | key op => cases op <;> first | rfl | exact ite_self _
  | _ => exact ite_self _

lemma putsConfig_configWrites (ts : List (Step World Op)) :
    (configWrites ts).any (·.label.putsConfig) = ts.any (·.label.putsConfig) := by
  rw [configWrites,List.any_filter]
  congr 1
  funext t
  cases t.label with
  | key op => cases op <;> first | rfl | exact Bool.and_false _
  | _ => exact Bool.and_false _

/-- What two writers of one configuration owe each other: the default is the one that `connect` has
set, and no peer is lost that was there or has been enrolled. -/
structure NothingLost (m : Machine) (c : Config) (key : Str) (enrolled : List Str) (c' : Config) :
    Prop where
  default : c'.defaultPeer = some key
  peers : ∀ k, k ∈ Dict.keys (allPeers m c.toPeerTable) ∨ k ∈ enrolled →
    k ∈ Dict.keys (allPeers m c'.toPeerTable)

section
variable {args : StartArgs} {c : Config} {key : Str} {s s' u : World} {a b : List (Entry World Op)}
  {spawned : Bool} (hc : s.store.keys.config = some c)
  (hqa : ∀ e ∈ a, e.own = false → e.step.label.writesConfig = false)
  (hqb : ∀ e ∈ b, e.own = false → e.step.label.writesConfig = false)
  (h : Exec (fun _ => True) (startBridge args) s
    (a ++ ⟨false,⟨.key (.setDefaultPeer key),u⟩⟩ :: b) (.ret spawned) s')

include hc hqa hqb h

/-- The writes of such a run, in their order. -/
lemma writes_chained : Chained savedConfig (some c) (configWrites (ownSteps a) ++
    ⟨.key (.setDefaultPeer key),u⟩ :: configWrites (ownSteps b)) (savedConfig s') := by
  have hrun : Chained savedConfig (savedConfig s) _ _ :=
    Exec.chained (fun l w hl => config_frame (l := l) w hl) h
  rw [List.map_append,List.filter_append,own_configWrites hqa,List.map_cons,
    List.filter_cons_of_pos (by rfl),own_configWrites hqb] at hrun
  rw [← hc]
  exact hrun

/-- The start has read the configuration that was there at first, or that with the new default. -/
lemma start_reads {w : World} (hreads : Reads w (ownSteps a ++ ownSteps b)) :
    ∃ read, w.store.keys.config = some read ∧ read.toPeerTable = c.toPeerTable ∧
      (ownSteps a = [] ∧ read.defaultPeer = some key ∨ ownSteps a ≠ [] ∧ read = c) := by
  have hchain := writes_chained hc hqa hqb h
  obtain ⟨p₁,s₁,ha,hb⟩ := h.split
  by_cases hnil : ownSteps a = []
  · rw [hnil] at hreads hchain
    have hu : savedConfig u = some c := hchain.1
    cases hb with
    | foreign _ hb =>
      obtain ⟨rest,hrest⟩ := hreads
      have hhead : (ownSteps b).head? = some ⟨.look .config,w⟩ := by
        rw [← List.nil_append (ownSteps b),← hrest]
        rfl
      have hw := first_own hb hqb hhead
      exact ⟨_,hw.trans (update_post hu),rfl,Or.inl ⟨hnil,rfl⟩⟩
  · obtain ⟨st,rest,hst⟩ := List.exists_cons_of_ne_nil hnil
    have hw : st = ⟨.look .config,w⟩ := by
      obtain ⟨rest',hrest'⟩ := hreads
      rw [hst] at hrest'
      exact (List.cons.inj hrest').1.symm
    have hhead : (ownSteps a).head? = some st := by
      rw [hst]
      rfl
    have hfirst := first_own ha hqa hhead
    subst hw
    exact ⟨c,hfirst.trans hc,rfl,Or.inr ⟨hnil,rfl⟩⟩

end

/-- In every complete execution of `start_bridge` on a configured bridge, among steps of others that
leave the configuration alone and one update of the default by `connect`, to a peer that is
enrolled; `a` and `b` are the steps before and after the update. Nothing is lost, exactly if the
update comes before the first access of the start, which reads the configuration, or after its last
write of the whole of it, or the configuration that the start has read leads to the same default. -/
theorem nothing_lost_iff {args : StartArgs} {c : Config} {key : Str} {s s' u : World}
    {a b : List (Entry World Op)} {spawned : Bool} (hm : StablePaths s.machine)
    (hc : s.store.keys.config = some c)
    (hkey : key ∈ Dict.keys (allPeers s.machine c.toPeerTable))
    (hquiet : ∀ e ∈ a ++ b, e.own = false → e.step.label.writesConfig = false)
    (hpaths : ∀ e ∈ a ++ b, SamePaths s.machine e.step.pre.machine)
    (h : Exec (fun _ => True) (startBridge args) s
      (a ++ ⟨false,⟨.key (.setDefaultPeer key),u⟩⟩ :: b) (.ret spawned) s') :
    (∃ c', s'.store.keys.config = some c' ∧
      NothingLost s.machine c key (enrolledBy (ownSteps (a ++ b))) c') ↔
    ownSteps a = [] ∨ (∀ st ∈ ownSteps b, st.label.putsConfig = false) ∨
      startDefault s.machine c = some key := by
  have hqa : ∀ e ∈ a, e.own = false → e.step.label.writesConfig = false :=
    fun e he => hquiet e (List.mem_append_left _ he)
  have hqb : ∀ e ∈ b, e.own = false → e.step.label.writesConfig = false :=
    fun e he => hquiet e (List.mem_append_right _ he)
  have hown : ownSteps (a ++ ⟨false,⟨.key (.setDefaultPeer key),u⟩⟩ :: b) =
      ownSteps a ++ ownSteps b := by simp
  have hchain := writes_chained hc hqa hqb h
  -- what the start has read
  obtain ⟨w,hreads,hwrites⟩ := (startBridge_written s.machine args).exec h
  rw [List.nil_append,hown] at hreads hwrites
  have hpathsOwn : ∀ t ∈ ownSteps a ++ ownSteps b, SamePaths s.machine t.pre.machine := by
    intro t ht
    rw [← ownSteps_append] at ht
    obtain ⟨e,he,rfl⟩ := List.mem_map.mp ht
    exact hpaths e (List.mem_of_mem_filter he)
  obtain ⟨read,hwread,htable,hcases⟩ := start_reads hc hqa hqb h hreads
  have hstart := hwrites read hwread hpathsOwn
  rw [configWrites,List.filter_append] at hstart
  have hne : allPeers s.machine c.toPeerTable ≠ [] := by
    intro hnil
    rw [hnil] at hkey
    cases hkey
  obtain ⟨c',hc',hdefault,hpeers⟩ := hstart.outcome hm htable (key_ne_nil hm hkey) hne
    (fun t ht => hpathsOwn t (by
      rcases List.mem_append.mp ht with h | h
      · exact List.mem_append_left _ (List.mem_of_mem_filter h)
      · exact List.mem_append_right _ (List.mem_of_mem_filter h))) hchain
  have henrolled : enrolledBy (configWrites (ownSteps a) ++ configWrites (ownSteps b)) =
      enrolledBy (ownSteps (a ++ b)) := by
    have happend : ∀ xs ys : List (Step World Op), enrolledBy (xs ++ ys) =
        enrolledBy xs ++ enrolledBy ys := fun _ _ => List.filterMap_append
    rw [happend,enrolledBy_configWrites,enrolledBy_configWrites,ownSteps_append,happend]
  change ∀ k, _ ∨ k ∈ enrolledBy (configWrites (ownSteps a) ++ configWrites (ownSteps b)) → _ at hpeers
  rw [henrolled] at hpeers
  -- only the default can be lost
  have hiff : (∃ c', s'.store.keys.config = some c' ∧
      NothingLost s.machine c key (enrolledBy (ownSteps (a ++ b))) c') ↔
      c'.defaultPeer = some key := by
    constructor
    · rintro ⟨c'',hc'',hlost⟩
      obtain rfl : c' = c'' := Option.some.inj (hc'.symm.trans hc'')
      exact hlost.default
    · exact fun hd => ⟨c',hc',hd,hpeers⟩
  rw [hiff,hdefault]
  change (if (configWrites (ownSteps b)).any (·.label.putsConfig) then _ else _) = _ ↔ _
  rw [putsConfig_configWrites]
  rcases hcases with ⟨hnil,hd⟩ | ⟨hnil,rfl⟩
  · refine iff_of_true ?_ (Or.inl hnil)
    rw [startDefault,hd,if_pos (truthy_some (key_ne_nil hm hkey)),ite_self]
  · cases hputs : (ownSteps b).any (·.label.putsConfig) with
    | true =>
      rw [if_pos rfl]
      constructor
      · exact fun hd => Or.inr (Or.inr hd)
      · rintro (h | h | h)
        · exact absurd h hnil
        · obtain ⟨st,hst,hput⟩ := List.any_eq_true.mp hputs
          rw [h st hst] at hput
          cases hput
        · exact h
    | false =>
      refine iff_of_true rfl (Or.inr (Or.inl ?_))
      simpa using hputs

/-- Without changes outside, the machine stays. -/
lemma machine_kept {α : Type} {p q : Code α} {s s' : World} {t : List (Entry World Op)}
    {Foreign : Op → Prop} (h : Exec Foreign p s t q s')
    (hin : ∀ e ∈ t, e.step.label.isOutside = false) : ∀ e ∈ t, e.step.pre.machine = s.machine := by
  induction h with
  | refl => simp
  | @own l _ s t _ _ _ ih =>
    intro e he
    rcases List.mem_cons.mp he with rfl | he
    · rfl
    · rw [ih (fun e he => hin e (List.mem_cons_of_mem _ he)) e he]
      exact apply_machine (hin ⟨true,⟨l,s⟩⟩ (List.mem_cons_self ..)) s
  | @foreign _ l s t _ _ _ _ ih =>
    intro e he
    rcases List.mem_cons.mp he with rfl | he
    · rfl
    · rw [ih (fun e he => hin e (List.mem_cons_of_mem _ he)) e he]
      exact apply_machine (hin ⟨false,⟨l,s⟩⟩ (List.mem_cons_self ..)) s

/-! A session with two peers, of which the first is the default; a third session connects to it, and
after `k` accesses of that start its own `connect` sets the default to the second. -/

def linkedMachine : Machine := { sampleMachine with
  resolve := rooted.resolve
  isAbsolute := rooted.isAbsolute }

lemma linkedMachine_stable : StablePaths linkedMachine :=
  ⟨rooted_stable.resolve_resolve,rooted_stable.isAbsolute_resolve,rooted_stable.strip_resolve⟩

/-- A start that enrolls a peer. -/
def linking (identity : Str) : Code Bool := startBridge {
  thread := sampleId.text
  ownerPid := some 7
  requested := some (.ok (claudeEntry identity))
  socket := str "/run/own.sock" }

def linked : World := (linking (str "51:9")).run ((linking (str "41:9")).run (.new linkedMachine))

def linkedConfig : Config := linked.store.keys.config.getD sampleConfig

def sampleUpdate : Op := .key (.setDefaultPeer (str "51:9"))

def untilUpdate (k : ℕ) : List (Entry World Op) × Code Bool × World :=
  interleave (linking (str "61:9")) linked (List.replicate k none)

def fromUpdate (k : ℕ) : List (Entry World Op) × Code Bool × World :=
  interleave (untilUpdate k).2.1 (apply sampleUpdate (untilUpdate k).2.2) (List.replicate 10 none)

lemma linking_exec (k : ℕ) : Exec (fun _ => True) (linking (str "61:9")) linked
    ((untilUpdate k).1 ++ ⟨false,⟨sampleUpdate,(untilUpdate k).2.2⟩⟩ :: (fromUpdate k).1)
    (fromUpdate k).2.1 (fromUpdate k).2.2 :=
  (interleave_exec _ (by simp) _ _).append (.foreign trivial (interleave_exec _ (by simp) _ _))

lemma linking_quiet (k : ℕ) : ∀ e ∈ (untilUpdate k).1 ++ (fromUpdate k).1,
    e.own = false → e.step.label.writesConfig = false := by
  intro e he hown
  rcases List.mem_append.mp he with h | h
  · rw [interleave_own k _ _ e h] at hown
    cases hown
  · rw [interleave_own 10 _ _ e h] at hown
    cases hown

lemma linking_paths (k : ℕ)
    (hin : ((untilUpdate k).1 ++ ⟨false,⟨sampleUpdate,(untilUpdate k).2.2⟩⟩ :: (fromUpdate k).1).all
      (fun e => !e.step.label.isOutside) = true) :
    ∀ e ∈ (untilUpdate k).1 ++ (fromUpdate k).1, SamePaths linked.machine e.step.pre.machine := by
  intro e he
  have hkept := machine_kept (linking_exec k) (fun e he => by
    simpa using List.all_eq_true.mp hin e he) e (by
      rcases List.mem_append.mp he with h | h
      · exact List.mem_append_left _ h
      · exact List.mem_append_right _ (List.mem_cons_of_mem _ h))
  rw [hkept]
  exact ⟨rfl,rfl⟩

/-- Before an update by `connect`, the start has finished its writes of the configuration. -/
theorem late_update_kept : ∃ c', (fromUpdate 6).2.2.store.keys.config = some c' ∧
    NothingLost linkedMachine linkedConfig (str "51:9")
      (enrolledBy (ownSteps ((untilUpdate 6).1 ++ (fromUpdate 6).1))) c' := by
  have hrun := linking_exec 6
  have hdone : (fromUpdate 6).2.1.isDone = true := by decide +kernel
  cases hp : (fromUpdate 6).2.1 with
  | act l next =>
    rw [hp] at hdone
    cases hdone
  | ret b =>
    rw [hp] at hrun
    exact (nothing_lost_iff linkedMachine_stable (by decide +kernel) (by decide +kernel)
      (linking_quiet 6) (linking_paths 6 (by decide +kernel)) hrun).mpr
      (Or.inr (Or.inl (by decide +kernel)))

/-- Between the read of the start and its first write, the update is lost. -/
theorem early_update_lost :
    ¬ ∀ (args : StartArgs) (c : Config) (key : Str) (s s' u : World)
      (a b : List (Entry World Op)) (spawned : Bool), StablePaths s.machine →
      s.store.keys.config = some c → key ∈ Dict.keys (allPeers s.machine c.toPeerTable) →
      (∀ e ∈ a ++ b, e.own = false → e.step.label.writesConfig = false) →
      (∀ e ∈ a ++ b, SamePaths s.machine e.step.pre.machine) →
      Exec (fun _ => True) (startBridge args) s
        (a ++ ⟨false,⟨.key (.setDefaultPeer key),u⟩⟩ :: b) (.ret spawned) s' →
      ∃ c', s'.store.keys.config = some c' ∧
        NothingLost s.machine c key (enrolledBy (ownSteps (a ++ b))) c' := by
  intro h
  have hrun := linking_exec 1
  have hdone : (fromUpdate 1).2.1.isDone = true := by decide +kernel
  cases hp : (fromUpdate 1).2.1 with
  | act l next =>
    rw [hp] at hdone
    cases hdone
  | ret b =>
    rw [hp] at hrun
    obtain ⟨c',hc',hkept⟩ := h _ linkedConfig (str "51:9") _ _ _ _ _ _ linkedMachine_stable
      (by decide +kernel) (by decide +kernel) (linking_quiet 1) (linking_paths 1 (by decide +kernel))
      hrun
    have hdefault : (fromUpdate 1).2.2.store.keys.config.map (·.defaultPeer) =
        some (some (str "41:9")) := by decide +kernel
    rw [hc',Option.map_some,hkept.default] at hdefault
    revert hdefault
    decide

end PeerChat
