import PeerChat.Interleaving.Log
import PeerChat.Setup.Review

/-! Trust is written only for what the owner has agreed to, whatever the app-server reports in the
meantime. -/
namespace PeerChat.Setup
open Python Interleaving

variable {args : SetupArgs} {codexHome command : Str}

/-! Reviews. -/

lemma review_command {hook : HookInfo} {h : Reviewed} (hr : hook.review command = .ok h) :
    h.command = command := by
  unfold HookInfo.review at hr
  split_ifs at hr
  split at hr
  · cases hr
  · cases hr
    rfl

lemma mapM_eq_ok {α β : Type} {f : α → Except Exc β} {xs : List α} {ys : List β} :
    xs.mapM f = .ok ys ↔ List.Forall₂ (fun x y => f x = .ok y) xs ys := by
  induction xs generalizing ys with
  | nil => cases ys <;> simp [pure,Except.pure]
  | cons x xs ih =>
    rw [List.mapM_cons]
    cases hx : f x with
    | error exc => cases ys <;> simp [bind,Except.bind,hx]
    | ok y =>
      cases hrest : xs.mapM f with
      | error exc => cases ys <;> simp [bind,Except.bind,← ih,hrest,hx]
      | ok rest => cases ys <;> simp [bind,Except.bind,pure,Except.pure,← ih,hrest,hx]

lemma mem_right {α β : Type} {R : α → β → Prop} {xs : List α} {ys : List β}
    (h : List.Forall₂ R xs ys) : ∀ y ∈ ys, ∃ x ∈ xs, R x y := by
  induction h with
  | nil => simp
  | cons hxy _ ih =>
    intro y hy
    obtain rfl | hy := List.mem_cons.mp hy
    · exact ⟨_,List.mem_cons_self ..,hxy⟩
    · obtain ⟨x,hx,hR⟩ := ih y hy
      exact ⟨x,List.mem_cons_of_mem _ hx,hR⟩

/-- A review that succeeds: its hooks in the order of their keys. -/
lemma reviewHooks_ok {resolve : Str → Str} {hooks : List HookInfo} {found : List Reviewed}
    (h : reviewHooks resolve codexHome command hooks = .ok found) : ∃ own,
      (hooks.filter (·.ours resolve (resolve (codexHome ++ str "/hooks.json")))).mapM
        (·.review command) = .ok own ∧
      own.length = 4 ∧ (∀ e ∈ expectedEvents, ∃ r ∈ own, r.eventName = e) ∧
      found = own.insertionSort fun h h' => h.key ≤ h'.key := by
  simp only [reviewHooks,bind,Except.bind] at h
  split at h
  · cases h
  · rename_i own hown
    split_ifs at h with hcount
    cases h
    simp only [EVENTS,Bool.or_eq_true,Bool.not_eq_true',not_or,
      Bool.not_eq_false] at hcount
    refine ⟨own,hown,by simpa using hcount.1,?_,rfl⟩
    intro e he
    have hany := List.all_eq_true.mp hcount.2 e he
    obtain ⟨r,hr,heq⟩ := List.any_eq_true.mp hany
    exact ⟨r,hr,of_decide_eq_true heq⟩

lemma reviewed_command {s : Desk} {hooks : List Reviewed}
    (h : s.reviewed codexHome command = .ok hooks) : ∀ r ∈ hooks, r.command = command := by
  unfold Desk.reviewed at h
  cases hs : s.hooks with
  | error exc =>
    rw [hs] at h
    cases h
  | ok infos =>
    rw [hs] at h
    obtain ⟨own,hown,-,-,rfl⟩ := reviewHooks_ok h
    intro r hr
    rw [List.mem_insertionSort] at hr
    obtain ⟨hook,-,hook_ok⟩ := mem_right (mapM_eq_ok.mp hown) r hr
    exact review_command hook_ok

/-! The hashed text tells the definitions. -/

lemma plain_definitions (hooks : List Reviewed) : Json.plain (definitions hooks) = true := by
  unfold definitions Json.plain
  induction hooks with
  | nil => rfl
  | cons h hooks ih => simp [Json.plainItems,Json.plain,Json.plainPairs,Reviewed.definition,ih]

lemma definition_inj {h h' : Reviewed} (heq : h.definition = h'.definition) :
    h.key = h'.key ∧ h.eventName = h'.eventName ∧ h.command = h'.command ∧
      h.currentHash = h'.currentHash := by
  simp only [Reviewed.definition,Json.obj.injEq,List.cons.injEq,Prod.mk.injEq,Json.str.injEq,
    true_and,and_true] at heq
  obtain ⟨hcommand,hhash,hevent,hkey⟩ := heq
  exact ⟨hkey,hevent,hcommand,hhash⟩

lemma definitions_injective {hooks hooks' : List Reviewed}
    (hs : Json.ScalarTexts (definitions hooks)) (hs' : Json.ScalarTexts (definitions hooks'))
    (h : definitionBytes hooks = definitionBytes hooks') :
    hooks.map Reviewed.definition = hooks'.map Reviewed.definition := by
  have htext : Json.dumpsAscii (definitions hooks) = Json.dumpsAscii (definitions hooks') := by
    refine Json.encode_ascii_injective ?_
    unfold definitionBytes Json.dumpsAscii at h
    rw [Json.encode_ascii,Json.encode_ascii] at h ⊢
    exact congrArg some h
  have hvalue := Json.dumpsAscii_injective (plain_definitions hooks) (plain_definitions hooks')
    hs hs' htext
  exact Json.arr.inj hvalue

/-- What is written is what has been shown, if the two texts are the same. -/
lemma edits_of_shown {hooks shown : List Reviewed} (hs : Json.ScalarTexts (definitions hooks))
    (hs' : Json.ScalarTexts (definitions shown)) (h : definitionBytes hooks = definitionBytes shown) :
    ∀ e ∈ edits hooks, ∃ r ∈ hooks, ∃ r' ∈ shown, e = r'.edit ∧ r'.eventName = r.eventName ∧
      r'.command = r.command := by
  intro e he
  obtain ⟨r,hr,rfl⟩ := List.mem_map.mp he
  have hr := (List.mem_filter.mp hr).1
  have hmem : r.definition ∈ shown.map Reviewed.definition := by
    rw [← definitions_injective hs hs' h]
    exact List.mem_map_of_mem hr
  obtain ⟨r',hr',heq⟩ := List.mem_map.mp hmem
  obtain ⟨hkey,hevent,hcommand,hhash⟩ := definition_inj heq
  refine ⟨r,hr,r',hr',?_,hevent,hcommand⟩
  unfold Reviewed.edit
  rw [hkey,hhash]

/-! The run. -/

abbrev Past := List (Step Desk SetupOp)

/-- The run has seen this review. -/
def Seen (codexHome command : Str) (past : Past) (hooks : List Reviewed) : Prop :=
  ∃ t ∈ past, t.label = .hooksList ∧ t.pre.reviewed codexHome command = .ok hooks

lemma seen_last (past : Past) {s : Desk} {hooks : List Reviewed}
    (h : s.reviewed codexHome command = .ok hooks) :
    Seen codexHome command (past ++ [⟨.hooksList,s⟩]) hooks :=
  ⟨⟨.hooksList,s⟩,by simp,rfl,h⟩

/-- The owner has agreed to the digest: on the command line, or by an answer after a review with this
digest. -/
inductive Agreed (args : SetupArgs) (codexHome command : Str) (past : Past) : Str → Prop
  | option {digest : Str} (h : args.approveDigest = some digest) (hne : digest ≠ []) :
      Agreed args codexHome command past digest
  | answer {before later : Past} {hooks : List Reviewed} {t : Step Desk SetupOp} {text : Str}
      (hpast : past = before ++ later) (hseen : Seen codexHome command before hooks)
      (ht : t ∈ later) (hlabel : t.label = .input) (htext : t.pre.input = .ok text)
      (hyes : affirmative text = true) : Agreed args codexHome command past (reviewDigest hooks)

lemma Seen.mono {past past' : Past} {hooks : List Reviewed} (h : Seen codexHome command past hooks)
    (hp : past <+: past') : Seen codexHome command past' hooks := by
  obtain ⟨t,ht,hrest⟩ := h
  exact ⟨t,hp.subset ht,hrest⟩

lemma Agreed.mono {past past' : Past} {digest : Str} (h : Agreed args codexHome command past digest)
    (hp : past <+: past') : Agreed args codexHome command past' digest := by
  cases h with
  | option h hne => exact .option h hne
  | @answer before later hooks t text hpast hseen ht hlabel htext hyes =>
    obtain ⟨rest,rfl⟩ := hp
    subst hpast
    exact .answer (List.append_assoc ..) hseen (List.mem_append_left _ ht) hlabel htext hyes

/-- The request writes the trust of a review whose digest the owner has agreed to. -/
structure Consented (args : SetupArgs) (codexHome command : Str) (past : Past) (w : BatchWrite) :
    Prop where
  reviewed : ∃ hooks, Seen codexHome command past hooks ∧ w.edits = edits hooks ∧
    Agreed args codexHome command past (reviewDigest hooks)

/-- What is known of an access. -/
def OnlyConsented (args : SetupArgs) (codexHome command : Str) (past : Past)
    (t : Step Desk SetupOp) : Prop :=
  ∀ w, t.label = .batchWrite w → Consented args codexHome command past w

/-- The last access has found everything trusted. -/
def Confirmed (codexHome command : Str) (past : Past) (hooks : List Reviewed) : Prop :=
  (∀ r ∈ hooks, r.trustStatus = str "trusted") ∧ ∃ before s, past = before ++ [⟨.hooksList,s⟩] ∧
    s.reviewed codexHome command = .ok hooks

section
variable {past : Past}

def SetupOp.writes : SetupOp → Bool
  | .batchWrite _ => true
  | _ => false

lemma onlyConsented_of_not_writes {op : SetupOp} (hop : op.writes = false) (s : Desk) :
    OnlyConsented args codexHome command past ⟨op,s⟩ := by
  intro w hw
  obtain rfl : op = .batchWrite w := hw
  cases hop

lemma perform_traced {op : SetupOp} (hop : op.writes = false) {P : Past → Desk → Prop}
    (hP : ∀ s, P (past ++ [⟨op,s⟩]) s) :
    (Prog.perform op).Traced (OnlyConsented args codexHome command) P past :=
  fun s => ⟨onlyConsented_of_not_writes hop s,hP s⟩

lemma review_traced (past : Past) :
    (review codexHome command).Traced (OnlyConsented args codexHome command)
      (fun u r => ∃ s, u = past ++ [⟨.hooksList,s⟩] ∧ r = s.reviewed codexHome command) past := by
  refine Prog.Traced.bind (P := fun u s => u = past ++ [⟨.hooksList,s⟩]) ?_ fun u s hu => ?_
  · exact perform_traced rfl fun s => rfl
  · exact ⟨s,hu,rfl⟩

lemma backUp_traced (past : Past) : backUp.Traced (OnlyConsented args codexHome command)
    (fun u _ => past <+: u) past := by
  have hemits : backUp.Emits (·.writes = false) := by
    refine ⟨rfl,fun s => ?_⟩
    simp only [Prog.bind]
    split_ifs
    · trivial
    refine ⟨rfl,fun s => ?_⟩
    simp only [Prog.bind]
    split_ifs
    · trivial
    refine ⟨rfl,fun s => ?_⟩
    simp only [Prog.bind]
    split
    · trivial
    · exact ⟨rfl,fun s => trivial⟩
  exact Prog.Traced.of_emits hemits
    (fun u l s hu hl => ⟨onlyConsented_of_not_writes hl s,hu.trans (List.prefix_append ..)⟩)
    (List.prefix_refl _)

lemma writeTrust_traced {hooks : List Reviewed} (hseen : Seen codexHome command past hooks)
    (hagreed : Agreed args codexHome command past (reviewDigest hooks)) :
    (writeTrust codexHome hooks).Traced (OnlyConsented args codexHome command)
      (fun u _ => past <+: u) past := by
  refine Prog.Traced.bind (P := fun u _ => past <+: u) ?_ fun u s hu => ?_
  · exact perform_traced rfl fun s => List.prefix_append ..
  split
  · exact hu
  refine Prog.Traced.bind (backUp_traced u) fun v r hv => ?_
  have hpast := hu.trans hv
  cases r with
  | error exc => exact hpast
  | ok _ =>
    intro s
    refine ⟨?_,hpast.trans (List.prefix_append ..)⟩
    intro w hw
    cases hw
    exact ⟨hooks,hseen.mono hpast,rfl,hagreed.mono hpast⟩

lemma enableReviewed_traced {digest : Str} (hagreed : Agreed args codexHome command past digest) :
    (enableReviewed codexHome command digest).Traced (OnlyConsented args codexHome command)
      (fun u r => ∀ hooks, r = .ok hooks → Confirmed codexHome command u hooks) past := by
  refine Prog.Traced.bind (review_traced past) ?_
  intro u r hu
  obtain ⟨s,rfl,rfl⟩ := hu
  cases hr : s.reviewed codexHome command with
  | error exc =>
    intro hooks h
    cases h
  | ok hooks =>
    dsimp only
    by_cases hdigest : reviewDigest hooks = digest
    swap
    · rw [if_pos hdigest]
      intro hooks h
      cases h
    subst hdigest
    rw [if_neg (not_not.mpr rfl)]
    have hseen := seen_last past hr
    have hagreed' := hagreed.mono (List.prefix_append past [⟨.hooksList,s⟩])
    have hwrite : (if edits hooks = [] then .ret (.ok ()) else writeTrust codexHome hooks).Traced
        (OnlyConsented args codexHome command) (fun _ _ => True) (past ++ [⟨.hooksList,s⟩]) := by
      split_ifs
      · trivial
      · exact (writeTrust_traced hseen hagreed').imp fun _ _ _ => trivial
    refine hwrite.bind fun v r _ => ?_
    cases r with
    | error exc =>
      intro hooks h
      cases h
    | ok _ =>
      refine Prog.Traced.bind (review_traced v) ?_
      intro u r hu
      obtain ⟨s',rfl,rfl⟩ := hu
      cases hverified : s'.reviewed codexHome command with
      | error exc =>
        intro hooks h
        cases h
      | ok verified =>
        dsimp only
        split_ifs with htrusted
        · intro hooks h
          cases h
        intro hooks' heq
        cases heq
        refine ⟨?_,v,s',rfl,hverified⟩
        intro r hr
        by_contra hne
        exact htrusted (List.any_eq_true.mpr ⟨r,hr,by simpa using hne⟩)

/-- An agreement comes after the review. -/
lemma askOwner_traced {hooks : List Reviewed} (hseen : Seen codexHome command past hooks) :
    (askOwner hooks).Traced (OnlyConsented args codexHome command)
      (fun u r => r = .ok true → Agreed args codexHome command u (reviewDigest hooks)) past := by
  intro s
  refine ⟨onlyConsented_of_not_writes rfl s,?_⟩
  cases hs : s.input with
  | error exc =>
    simp only [Prog.bind,hs]
    intro h
    cases h
  | ok text =>
    simp only [Prog.bind,hs]
    split_ifs with hdetails
    · intro s₁
      refine ⟨onlyConsented_of_not_writes rfl s₁,?_⟩
      intro s₂
      refine ⟨onlyConsented_of_not_writes rfl s₂,?_⟩
      intro hyes
      cases htext : s₂.input with
      | error exc =>
        rw [htext] at hyes
        cases hyes
      | ok text =>
        rw [htext] at hyes
        refine .answer (t := ⟨.input,s₂⟩) (by rw [List.append_assoc,List.append_assoc]) hseen
          (by simp) rfl htext ?_
        exact Except.ok.inj hyes
    · intro hyes
      exact .answer rfl hseen (List.mem_singleton_self _) rfl hs (Except.ok.inj hyes)

/-- What a run ends with. -/
def Ends (codexHome command : Str) (past : Past) (r : Except Exc SetupResult) : Prop :=
  ∀ hooks, r = .ok (.enabled hooks) → Confirmed codexHome command past hooks

lemma enabling_traced {digest : Str} (hagreed : Agreed args codexHome command past digest) :
    (enableReviewed codexHome command digest >>= fun r =>
      .ret (r.map SetupResult.enabled)).Traced (OnlyConsented args codexHome command)
        (Ends codexHome command) past := by
  refine (enableReviewed_traced hagreed).bind fun u r hr => ?_
  intro hooks heq
  cases r with
  | error exc => cases heq
  | ok verified =>
    cases heq
    exact hr _ rfl

lemma setup_traced : (setup args codexHome command).Traced (OnlyConsented args codexHome command)
    (Ends codexHome command) [] := by
  refine Prog.Traced.bind (review_traced []) ?_
  intro u r hu
  obtain ⟨s,rfl,rfl⟩ := hu
  cases hr : s.reviewed codexHome command with
  | error exc =>
    intro hooks h
    cases h
  | ok hooks =>
    dsimp only
    split_ifs
    · intro hooks h
      cases h
    · intro hooks h
      cases h
    have hseen := seen_last [] hr
    cases happroved : args.approved with
    | some digest =>
      obtain ⟨hdigest,hne⟩ := Option.filter_eq_some_iff.mp happroved
      exact enabling_traced (.option hdigest (of_decide_eq_true hne))
    | none =>
      refine (askOwner_traced hseen).bind fun u r hu => ?_
      cases r with
      | error exc =>
        intro hooks h
        cases h
      | ok agreed =>
        cases agreed with
        | false =>
          intro hooks h
          cases h
        | true => exact enabling_traced (hu rfl)

end

/-- Whatever the app-server answers and others change meanwhile, and wherever the run ends: a run
writes trust only after it has seen, in one report, all four hooks of the bridge with a digest that the
owner has agreed to, and it writes the hashes of exactly the untrusted ones among them. Unless two
different texts have the same SHA-256, these are definitions that the owner has been shown, with the
command of this installation; this is for answers without lone surrogates, as an escaped pair of them is
written like the one character. A run that ends with the hooks enabled has last seen all of them
trusted. -/
theorem trust_as_agreed {s s' : Desk} {t : List (Entry Desk SetupOp)}
    {q : SetupCode (Except Exc SetupResult)}
    (he : Exec (fun l => ∃ desk, l = .outside desk) (setup args codexHome command) s t q s') :
    (∀ u st v w, t = u ++ ⟨true,st⟩ :: v → st.label = .batchWrite w →
      ∃ hooks, Seen codexHome command (ownSteps u) hooks ∧ w.edits = edits hooks ∧
        Agreed args codexHome command (ownSteps u) (reviewDigest hooks) ∧
        ∀ shown, reviewDigest shown = reviewDigest hooks →
          Json.ScalarTexts (definitions shown) → Json.ScalarTexts (definitions hooks) →
          definitionBytes shown ≠ definitionBytes hooks ∨
          ∀ e ∈ w.edits, ∃ r ∈ shown, r.command = command ∧ e = r.edit) ∧
    ∀ hooks, q = .ret (.ok (.enabled hooks)) → Confirmed codexHome command (ownSteps t) hooks := by
  constructor
  · intro u st v w ht hw
    subst ht
    obtain ⟨hooks,hseen,hedits,hagreed⟩ := (setup_traced.exec_step he w hw).reviewed
    rw [List.nil_append] at hseen hagreed
    refine ⟨hooks,hseen,hedits,hagreed,?_⟩
    intro shown _ hs hs'
    by_cases hbytes : definitionBytes shown = definitionBytes hooks
    · refine Or.inr ?_
      rw [hedits]
      intro e hmem
      obtain ⟨r,hr,r',hr',heq,-,hcommand⟩ := edits_of_shown hs' hs hbytes.symm e hmem
      obtain ⟨t,-,-,hreviewed⟩ := hseen
      exact ⟨r',hr',hcommand.trans (reviewed_command hreviewed r hr),heq⟩
    · exact Or.inl hbytes
  · intro hooks hq
    subst hq
    have hend : Ends codexHome command ([] ++ ownSteps t) (.ok (.enabled hooks)) :=
      setup_traced.exec he
    rw [List.nil_append] at hend
    exact hend hooks rfl

/-- The bridge's four hooks as the app-server reports them with this trust. -/
def sampleReport (trust : String) : List HookInfo :=
  [("k1","sessionStart"),("k2","postToolUse"),("k3","userPromptSubmit"),("k4","stop")].map fun k =>
    { key := some (str k.1)
      eventName := some (str k.2)
      command := some (str "peer-chat-hook")
      currentHash := some (str "sha256:" ++ str k.1)
      trustStatus := some (str trust)
      statusMessage := some MARKER
      sourcePath := some (str "/h/hooks.json")
      handlerType := some (str "command")
      timeoutSec := some 3
      enabled := some true }

def sampleDesk (trust : String) : Desk where
  resolve := id
  hooks := .ok (sampleReport trust)
  layers := .ok []
  answer := .ok ()
  input := .ok (str "Yes ")
  config := none
  backup := none
  atomicWrite := .ok ()

/-- The owner is asked, agrees, and the app-server trusts what is written. -/
def agreedRun := interleave (setup ⟨false,none,true⟩ (str "/h") (str "peer-chat-hook"))
  (sampleDesk "untrusted") (List.replicate 6 none ++ [some (.outside (sampleDesk "trusted")),none])

/-- The run's own request, with four edits. -/
def writesFour (e : Entry Desk SetupOp) : Bool :=
  e.own && match e.step.label with
    | .batchWrite w => w.edits.length == 4
    | _ => false

lemma agreedRun_writes : agreedRun.1.any writesFour = true := by decide +kernel

/-- The owner agrees after the review, and four hashes are written. -/
theorem trust_as_agreed_sample : ∃ u st v w hooks, agreedRun.1 = u ++ ⟨true,st⟩ :: v ∧
    st.label = .batchWrite w ∧ w.edits.length = 4 ∧ w.edits = edits hooks ∧
    Seen (str "/h") (str "peer-chat-hook") (ownSteps u) hooks ∧
    Agreed ⟨false,none,true⟩ (str "/h") (str "peer-chat-hook") (ownSteps u) (reviewDigest hooks) := by
  obtain ⟨e,he,hwrites⟩ := List.any_eq_true.mp agreedRun_writes
  obtain ⟨u,v,ht⟩ := List.append_of_mem he
  obtain ⟨own,st⟩ := e
  obtain ⟨hown,hlabel⟩ := Bool.and_eq_true_iff.mp hwrites
  obtain rfl : own = true := hown
  split at hlabel
  · rename_i w hw
    have hexec : Exec (fun l => ∃ desk, l = SetupOp.outside desk)
        (setup ⟨false,none,true⟩ (str "/h") (str "peer-chat-hook")) (sampleDesk "untrusted")
        agreedRun.1 agreedRun.2.1 agreedRun.2.2 := by
      refine interleave_exec _ ?_ _ _
      intro l hl
      simp at hl
      exact ⟨_,hl⟩
    obtain ⟨hooks,hseen,hedits,hagreed,-⟩ := (trust_as_agreed hexec).1 u st v w ht hw
    exact ⟨u,st,v,w,hooks,ht,hw,beq_iff_eq.mp hlabel,hedits,hseen,hagreed⟩
  · cases hlabel

end PeerChat.Setup
