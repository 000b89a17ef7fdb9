import PeerChat.System.Made

/-! A listener among others: what holds of its ticks, holds of its whole life. -/
namespace PeerChat
open Python Wire Interleaving

/-- The accesses of a listener outside its ticks. -/
def Op.attends : Op → Prop
  | .look _ | .restart | .key (.putStop _) | .key (.putRuntime _) | .key (.reconcile _) => True
  | _ => False

variable {I : World → Prop} {R G : World → Op → Prop}

lemma stable_true : Stable I R fun _ => True := fun _ _ _ _ _ => trivial

/-- The ticks are given a configuration that has been read from the store. -/
lemma serve_sat_read {C : Config → Prop} (hattends : ∀ l s, I s → l.attends → G s l)
    (hread : ∀ s config, I s → s.store.keys.config = some config → C config) (U : Interp)
    (hdispatch : ∀ config, C config →
      Sat I R G (fun _ => True) (dispatch U config) fun _ _ => True) (pid : Pid)
    (passes : List Bool) : Sat I R G (fun _ => True) (serve U pid passes) fun _ _ => True := by
  have hemits : ∀ {α : Type} {p : Code α}, p.Emits Op.attends →
      Sat I R G (fun _ => True) p fun _ _ => True :=
    fun hp => Sat.of_emits hp fun s l hI hl => hattends l s hI hl
  have hpass : ∀ due, Sat I R G (fun _ => True) (workerPass U due) fun _ _ => True := by
    intro due w hI _
    refine ⟨hattends _ w hI trivial,_,stable_true,trivial,?_⟩
    simp only [Prog.bind]
    split
    · exact fun _ _ => trivial
    · rename_i config hconfig
      intro w₁ hI₁ _
      refine ⟨hattends _ w₁ hI₁ trivial,_,stable_true,trivial,?_⟩
      simp only [Prog.bind]
      refine Sat.bind (hemits (supervise_emits (fun _ _ => trivial) (fun _ => trivial) config _))
        fun _ => ?_
      split_ifs
      · exact hdispatch config (hread w config hI hconfig)
      · exact fun _ _ => trivial
  have hworker : Sat I R G (fun _ => True) (worker U passes) fun _ _ => True := by
    induction passes with
    | nil => exact fun _ _ => trivial
    | cons due rest ih =>
      refine Sat.bind (hpass due) fun goesOn => ?_
      split_ifs
      · exact ih
      · exact fun _ _ => trivial
  intro w hI _
  refine ⟨hattends _ w hI trivial,_,stable_true,trivial,fun w₁ hI₁ _ =>
    ⟨hattends _ w₁ hI₁ trivial,_,stable_true,trivial,?_⟩⟩
  simp only [Prog.bind]
  split_ifs
  · exact fun _ _ => trivial
  · split
    · exact fun _ _ => trivial
    · have hstart : (startup pid ‹Config›).Emits Op.attends :=
        ⟨trivial,fun _ => ⟨trivial,fun _ => ⟨trivial,fun _ => emit_emits trivial⟩⟩⟩
      exact Sat.bind (hemits hstart) fun _ => Sat.bind hworker fun _ =>
        hemits (p := emit (.key (.putRuntime none))) (emit_emits trivial)

lemma serve_sat (hattends : ∀ l s, I s → l.attends → G s l) (U : Interp)
    (hdispatch : ∀ config, Sat I R G (fun _ => True) (dispatch U config) fun _ _ => True) (pid : Pid)
    (passes : List Bool) : Sat I R G (fun _ => True) (serve U pid passes) fun _ _ => True :=
  serve_sat_read hattends (fun _ _ _ _ => trivial) U (fun config _ => hdispatch config) pid passes

end PeerChat
