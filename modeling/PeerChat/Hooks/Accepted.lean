import PeerChat.Hooks.Notices
import PeerChat.Interleaving.Alone
import PeerChat.System.Frame

/-! An accepted active hook that runs alone: what its offering transaction finds, and which of the
received messages it offers. -/
namespace PeerChat
open Python Wire Interleaving

/-- The hook of an active event that the routing check lets through. -/
structure Accepted (m : Machine) (payload : HookPayload) (config : Config) : Prop where
  active : payload.event.active = true
  sessionId : validId payload.sessionId = true
  routed : routingRejection m payload config true = none

namespace Accepted
variable {m : Machine} {payload : HookPayload} {config : Config}

lemma lifecycle (h : Accepted m payload config) : payload.event.lifecycle = true := by
  have hactive := h.active
  cases he : payload.event <;> rw [he] at hactive <;> first | rfl | cases hactive

lemma not_idle (h : Accepted m payload config) : ¬ payload.event.idle = true := by
  have hactive := h.active
  cases he : payload.event <;> rw [he] at hactive <;> simp [HookEvent.active,HookEvent.idle] at hactive ⊢

end Accepted

/-- What a hook writes before it takes the notices. -/
def hookWrites (m : Machine) (payload : HookPayload) (config : Config) : List Op :=
  [.key (.putHookSeen (seenRecord m payload config (register m payload) .matched))] ++
    (ownerTurn payload).toList.map (fun turn => .key (.renew turn)) ++
    [.key (.putPhase .active),.key (.activeHook payload)]

/-- The world that the offering transaction finds. -/
def beforeOffer (payload : HookPayload) (config : Config) (w : World) : World :=
  after w (hookWrites w.machine payload config ++ [.key .takeNotices])

/-- The notices that the hook takes. -/
def World.noticeText (w : World) : Str := noticesText w.machine w.notes

lemma after_keyOps {ops : List Op} (hops : ∀ op ∈ ops, ∃ k, op = .key k) (w : World) :
    (after w ops).store.messages = w.store.messages ∧ (after w ops).machine = w.machine := by
  induction ops generalizing w with
  | nil => exact ⟨rfl,rfl⟩
  | cons op ops ih =>
    obtain ⟨k,rfl⟩ := hops op (List.mem_cons_self ..)
    exact ih (fun op hop => hops op (List.mem_cons_of_mem _ hop)) _

lemma after_same (key : MetaKey) {ops : List Op} (hops : ∀ op ∈ ops, key ∉ op.writes) (w : World) :
    key.Same w.store.keys (after w ops).store.keys := by
  induction ops generalizing w with
  | nil => exact key.same_refl _
  | cons op ops ih =>
    have hhead := apply_frame op w (hops op (List.mem_cons_self ..))
    have htail := ih (fun op hop => hops op (List.mem_cons_of_mem _ hop)) (apply op w)
    rw [after_cons]
    cases key <;> exact htail.trans hhead

section
variable (m : Machine) (payload : HookPayload) (config : Config)

lemma hookWrites_keyOps : ∀ op ∈ hookWrites m payload config, ∃ k, op = .key k := by
  intro op hop
  unfold hookWrites at hop
  cases ht : ownerTurn payload <;>
    simp only [ht,Option.toList,List.map_nil,List.map_cons,List.append_nil,List.cons_append,
      List.nil_append,List.mem_cons,List.not_mem_nil,or_false] at hop
  · rcases hop with rfl | rfl | rfl <;> exact ⟨_,rfl⟩
  · rcases hop with rfl | rfl | rfl | rfl <;> exact ⟨_,rfl⟩

/-- The keys that a hook writes before it takes the notices. -/
def hookKeys : List MetaKey :=
  [.hookSeen,.remaining,.wakeRemaining,.budgetOwnerTurn,.phase] ++ wakeKeys

lemma hookWrites_writes : ∀ op ∈ hookWrites m payload config, ∀ key ∈ op.writes, key ∈ hookKeys := by
  intro op hop key hkey
  unfold hookWrites at hop
  cases ht : ownerTurn payload <;>
    simp only [ht,Option.toList,List.map_nil,List.map_cons,List.append_nil,List.cons_append,
      List.nil_append,List.mem_cons,List.not_mem_nil,or_false] at hop
  · rcases hop with rfl | rfl | rfl <;>
      simp [Op.writes,KeyOp.writes,hookKeys] at hkey ⊢ <;> tauto
  · rcases hop with rfl | rfl | rfl | rfl <;>
      simp [Op.writes,KeyOp.writes,hookKeys] at hkey ⊢ <;> tauto

lemma hookWrites_same (key : MetaKey) (h : key ∉ hookKeys) (w : World) :
    key.Same w.store.keys (after w (hookWrites m payload config)).store.keys :=
  after_same key (fun op hop hk => h (hookWrites_writes m payload config op hop key hk)) w

end

section
variable (payload : HookPayload) (config : Config) (w : World)

lemma beforeOffer_eq : beforeOffer payload config w =
    apply (Op.key .takeNotices) (after w (hookWrites w.machine payload config)) := by
  rw [beforeOffer,Interleaving.after_append]
  rfl

@[simp] lemma beforeOffer_messages :
    (beforeOffer payload config w).store.messages = w.store.messages := by
  rw [beforeOffer_eq]
  exact (after_keyOps (hookWrites_keyOps _ _ _) w).1

@[simp] lemma beforeOffer_machine : (beforeOffer payload config w).machine = w.machine := by
  rw [beforeOffer_eq]
  exact (after_keyOps (hookWrites_keyOps _ _ _) w).2

@[simp] lemma beforeOffer_pending : (beforeOffer payload config w).store.pending = w.store.pending := by
  rw [Store.pending,Store.select,beforeOffer_messages]
  rfl

@[simp] lemma beforeOffer_notes : (beforeOffer payload config w).notes = [] := by
  rw [beforeOffer_eq]
  rfl

lemma beforeOffer_same (key : MetaKey) (h : key ∉ hookKeys) (hnotices : key ≠ .peerNotices) :
    key.Same w.store.keys (beforeOffer payload config w).store.keys := by
  have hwrites := hookWrites_same w.machine payload config key h w
  have htake : key.Same _ _ :=
    apply_frame (Op.key .takeNotices) (after w (hookWrites w.machine payload config))
      (by simpa [Op.writes,KeyOp.writes] using hnotices)
  rw [beforeOffer_eq]
  cases key <;> exact htake.trans hwrites

end

/-! The whole hook. -/

section
variable {payload : HookPayload} {config : Config} {w : World}

lemma deliver_alone (h : Accepted w.machine payload config)
    (hconfig : w.store.keys.config = some config) :
    (deliver payload).run w =
        apply (Op.inbox (.offer config w.noticeText)) (beforeOffer payload config w) ∧
      (deliver payload).value w =
        offeredContext w.machine config w.noticeText (beforeOffer payload config w).store := by
  have hvalid : ¬ (¬ payload.event.lifecycle = true ∨ ¬ validId payload.sessionId = true) := by
    simp [h.lifecycle,h.sessionId]
  have hphase : eventPhase payload.event = .active := by
    rw [eventPhase,if_neg h.not_idle]
  have hnotes : noticesText (after w (hookWrites w.machine payload config)).machine
      (after w (hookWrites w.machine payload config)).store.keys.peerNotices = w.noticeText := by
    have hsame := hookWrites_same w.machine payload config .peerNotices (by decide) w
    change (after w (hookWrites w.machine payload config)).store.keys.peerNotices = w.notes at hsame
    rw [World.noticeText,hsame,(after_keyOps (hookWrites_keyOps _ _ _) w).2]
  unfold deliver
  rw [if_neg hvalid,beforeOffer_eq,← hnotes]
  cases ht : ownerTurn payload with
  | none =>
    simp only [read_bind,Prog.run_act,Prog.value_act,apply_look,hconfig,h.routed,emit_bind,
      deliverRouted,renewWindow,ht,Prog.ret_bind,decideWake,h.active,if_true,hphase,
      if_neg h.not_idle,hookWrites]
    exact ⟨rfl,rfl⟩
  | some turn =>
    simp only [read_bind,Prog.run_act,Prog.value_act,apply_look,hconfig,h.routed,emit_bind,
      deliverRouted,renewWindow,ht,decideWake,h.active,if_true,hphase,if_neg h.not_idle,hookWrites]
    exact ⟨rfl,rfl⟩

end

/-! Every message has a text that fits into a context. -/

lemma length_of_validId {id : Str} (h : validId id = true) : id.length = 36 := by
  unfold validId at h
  split at h
  · rename_i u hu
    have heq : u.text = lower id := eq_of_beq h
    have hlower : (lower id).length = id.length := by simp [lower]
    have htext : u.text.length = 36 := by
      have hdigits := u.length_eq
      simp only [Uuid.text,Uuid.hex,List.length_append,List.length_cons,List.length_map,
        List.length_take,List.length_drop]
      omega
    rw [← hlower,← heq,htext]
  · contradiction

lemma length_oversizedText {id : Str} (h : id.length = 36) :
    (oversizedText id).length ≤ MAX_CONTEXT := by
  unfold oversizedText
  simp only [List.length_append,h]
  decide +kernel

lemma length_hookText {m : Machine} {config : Config} {row : MessageRow} {text : Str}
    (hid : validId row.id = true) (h : hookText m config row = .ok text) :
    text.length ≤ MAX_CONTEXT := by
  unfold hookText at h
  cases hq : queuedText m config row with
  | error exc => simp [hq,bind,Except.bind] at h
  | ok long =>
    simp only [hq,bind,Except.bind,Except.ok.injEq] at h
    split_ifs at h with hlong
    · rw [← h]
      exact length_oversizedText (length_of_validId hid)
    · rw [← h]
      exact not_lt.mp hlong

/-! One offering transaction. -/

section
variable {m : Machine} {config : Config}

/-- The loop holds no eligible row. -/
lemma offerRows_held {rows : List MessageRow} {b b' : Batch}
    (h : offerRows m config rows b = .ok b') (hnd : (rows.map MessageRow.key).Nodup)
    (hrec : ∀ r ∈ rows, b.store.status r.key = some .received) :
    ∀ r ∈ rows, b'.store.status r.key = some .held → ¬ Eligible m config r := by
  induction rows generalizing b with
  | nil => simp
  | cons row rows ih =>
    obtain ⟨-,hnd'⟩ := List.nodup_cons.mp hnd
    rcases offerRows_cons h with rfl | ⟨reason,hhold,hrun⟩ | ⟨remaining,text,-,-,-,-,hrun⟩
    · intro r hr hheld
      rw [hrec r hr] at hheld
      cases hheld
    · obtain ⟨hrec',-⟩ := offerRows_rest hrun rfl hnd hrec
      intro r hr hheld helig
      rcases List.mem_cons.mp hr with rfl | hr
      · rw [holdReason_none_iff.mpr helig] at hhold
        cases hhold
      · exact ih hrun hnd' hrec' r hr hheld helig
    · obtain ⟨hrec',hrow⟩ := offerRows_rest hrun rfl hnd hrec
      intro r hr hheld
      rcases List.mem_cons.mp hr with rfl | hr
      · rw [hrow] at hheld
        cases hheld
      · exact ih hrun hnd' hrec' r hr hheld

/-- With no notice before it and an allowance, the loop deals with its first row. -/
lemma offerRows_first {row : MessageRow} {rows : List MessageRow} {b b' : Batch}
    (h : offerRows m config (row::rows) b = .ok b') (hpieces : b.pieces = [])
    (havail : available b.remaining = true) (hid : validId row.id = true)
    (hnd : ((row::rows).map MessageRow.key).Nodup)
    (hrec : ∀ r ∈ row::rows, b.store.status r.key = some .received) :
    b'.store.status row.key ≠ some .received := by
  rw [offerRows] at h
  cases hr : b.remaining with
  | none =>
    rw [hr] at havail
    cases havail
  | some remaining =>
    rw [hr] at havail
    simp only [hr,havail,not_true_eq_false,if_false] at h
    cases hhold : holdReason m config row with
    | some reason =>
      simp only [hhold] at h
      have hrow := (offerRows_rest h rfl hnd hrec).2
      rw [hrow]
      decide
    | none =>
      obtain ⟨text,htext⟩ := hookText_ok hhold
      have hlen := length_hookText hid htext
      have hfits : ¬ MAX_CONTEXT < (b.pieces.map List.length).sum + text.length := by
        rw [hpieces,List.map_nil,List.sum_nil]
        omega
      simp only [hhold,htext,bind,Except.bind,if_neg hfits] at h
      have hrow := (offerRows_rest h rfl hnd hrec).2
      rw [hrow]
      decide

lemma offer_eq_batch (m : Machine) (config : Config) (notice : Str) {s : Store} (hmode : hooksOffer s.keys = true) : ∃ b,
    offerRows m config (s.pending.take 4) ⟨s,s.keys.remaining,noticePieces notice⟩ = .ok b ∧
      offer m config notice s = b.store.setKeys (updateRemaining b.remaining) := by
  obtain ⟨b,hb⟩ := offerRows_ok m config (s.pending.take 4) ⟨s,s.keys.remaining,noticePieces notice⟩
  have hbatch : offerBatch m config notice s = .ok (some b) := by
    rw [offerBatch,if_neg (by simpa using hmode)]
    change Except.map some (offerRows m config (s.pending.take 4)
      ⟨s,s.keys.remaining,noticePieces notice⟩) = _
    rw [hb]
    rfl
  exact ⟨b,hb,by rw [offer,hbatch]⟩

/-- An eligible message that an offer deals with is offered. -/
lemma offer_of_eligible {notice : Str} {s : Store} {r : MessageRow} (hr : r ∈ s.pending)
    (helig : Eligible m config r)
    (hdealt : (offer m config notice s).status r.key ≠ some .received) :
    (offer m config notice s).status r.key = some .hookOffered := by
  have hpre := Store.status_of_mem_pending hr
  rcases offer_status m config notice s r.key with he | ⟨-,hheld | hoffered⟩
  · exact absurd (he.trans hpre) hdealt
  · by_cases hmode : hooksOffer s.keys = true
    · obtain ⟨b,hb,hoffer⟩ := offer_eq_batch m config notice hmode
      rw [hoffer,Store.status_setKeys] at hheld
      have hnd := s.pending_take_nodup 4
      have hrec := s.pending_take_status 4
      rcases offerRows_status hb hnd hrec r.key with he | ⟨hmem,-⟩
      · rw [hheld,hpre] at he
        cases he
      · obtain ⟨x,hx,hxk⟩ := List.mem_map.mp hmem
        have hxs : x ∈ s.pending := (List.take_sublist ..).subset hx
        obtain rfl : x = r := List.inj_on_of_nodup_map s.pending_nodup hxs hr hxk
        exact absurd helig (offerRows_held hb hnd hrec x hx hheld)
    · have hsame : offer m config notice s = s := by
        rw [offer,offerBatch,if_pos (by simpa using hmode)]
      rw [hsame,hpre] at hheld
      cases hheld
  · exact hoffered

/-- Without a notice, and with an allowance, an offer deals with the oldest message. -/
lemma offer_oldest (m : Machine) (config : Config) {s : Store} {row : MessageRow} {rows : List MessageRow}
    (hmode : hooksOffer s.keys = true) (havail : available s.keys.remaining = true)
    (hpending : s.pending = row::rows) (hid : validId row.id = true) :
    (offer m config [] s).status row.key ≠ some .received := by
  obtain ⟨b,hb,hoffer⟩ := offer_eq_batch m config [] hmode
  have hnd := s.pending_take_nodup 4
  have hrec := s.pending_take_status 4
  rw [hpending,List.take_succ_cons] at hb hnd hrec
  rw [hoffer,Store.status_setKeys]
  exact offerRows_first hb rfl havail hid hnd hrec

end

/-! Which messages are offered. -/

/-- The rows that are not held. -/
def eligibleRows (m : Machine) (config : Config) (rows : List MessageRow) : List MessageRow :=
  rows.filter fun row => holdReason m config row = none

section
variable {m : Machine} {config : Config}

lemma readyTexts_cons_hold {row : MessageRow} {reason : Str}
    (h : holdReason m config row = some reason) (rows : List MessageRow) :
    readyTexts m config (row::rows) = readyTexts m config rows := by
  simp [readyTexts,h]

lemma readyTexts_cons {row : MessageRow} {text : Str} (h : holdReason m config row = none)
    (ht : hookText m config row = .ok text) (rows : List MessageRow) :
    readyTexts m config (row::rows) = text :: readyTexts m config rows := by
  simp [readyTexts,h,ht,Except.toOption]

lemma readyTexts_append (rows rows' : List MessageRow) :
    readyTexts m config (rows ++ rows') = readyTexts m config rows ++ readyTexts m config rows' :=
  List.filterMap_append

/-- Every eligible row has a text, and no other has. -/
lemma readyTexts_eligible (rows : List MessageRow) :
    readyTexts m config (eligibleRows m config rows) = readyTexts m config rows ∧
      (readyTexts m config rows).length = (eligibleRows m config rows).length := by
  induction rows with
  | nil => exact ⟨rfl,rfl⟩
  | cons row rows ih =>
    obtain ⟨htexts,hlen⟩ := ih
    unfold eligibleRows at htexts hlen ⊢
    cases hh : holdReason m config row with
    | some reason =>
      rw [List.filter_cons_of_neg (by simp [hh]),readyTexts_cons_hold hh]
      exact ⟨htexts,hlen⟩
    | none =>
      obtain ⟨text,ht⟩ := hookText_ok hh
      rw [List.filter_cons_of_pos (by simp [hh]),readyTexts_cons hh ht,readyTexts_cons hh ht,htexts]
      exact ⟨rfl,by simp [hlen]⟩

/-- The loop offers as many of the eligible rows as it adds pieces, from the first on. -/
lemma offerRows_offered {rows : List MessageRow} {b b' : Batch}
    (h : offerRows m config rows b = .ok b') (hnd : (rows.map MessageRow.key).Nodup)
    (hrec : ∀ r ∈ rows, b.store.status r.key = some .received) :
    rows.filter (fun r => b'.store.status r.key = some .hookOffered) =
      (eligibleRows m config rows).take (b'.pieces.length - b.pieces.length) := by
  induction rows generalizing b with
  | nil => simp [eligibleRows]
  | cons row rows ih =>
    obtain ⟨-,hnd'⟩ := List.nodup_cons.mp hnd
    rcases offerRows_cons h with rfl | ⟨reason,hhold,hrun⟩ | ⟨remaining,text,hnone,-,-,-,hrun⟩
    · rw [Nat.sub_self,List.take_zero,List.filter_eq_nil_iff]
      intro r hr
      simp [hrec r hr]
    · obtain ⟨hrec',hrow⟩ := offerRows_rest hrun rfl hnd hrec
      rw [List.filter_cons_of_neg (by simp [hrow]),ih hrun hnd' hrec',eligibleRows,eligibleRows,
        List.filter_cons_of_neg (by simp [hhold])]
    · obtain ⟨hrec',hrow⟩ := offerRows_rest hrun rfl hnd hrec
      have hpieces := congrArg List.length (offerRows_pieces hrun)
      simp only [List.length_append,List.length_singleton] at hpieces
      have hcount : b'.pieces.length - b.pieces.length =
          b'.pieces.length - (b.pieces ++ [text]).length + 1 := by
        rw [List.length_append,List.length_singleton]
        omega
      rw [List.filter_cons_of_pos (by simp [hrow]),ih hrun hnd' hrec',hcount,eligibleRows,
        eligibleRows,List.filter_cons_of_pos (by simp [hnone]),List.take_succ_cons]

/-- Of the received messages, those that are offered from one state to the next. -/
def offeredBetween (s s' : Store) : List MessageRow :=
  s.pending.filter fun r => s'.status r.key = some .hookOffered

/-- A transaction offers as many of the oldest four that are eligible as it has texts for. -/
lemma offered_eq (m : Machine) (config : Config) (notice : Str) (s : Store) :
    offeredBetween s (offer m config notice s) = (eligibleRows m config (s.pending.take 4)).take
      (fitting notice.length (offeredTexts m config s)).length := by
  by_cases hmode : hooksOffer s.keys = true
  · obtain ⟨b,hb,hoffer⟩ := offer_eq_batch m config notice hmode
    have hnd := s.pending_take_nodup 4
    have hrec := s.pending_take_status 4
    have hfirst := offerRows_offered hb hnd hrec
    have hcount : b.pieces.length - (noticePieces notice).length =
        (fitting notice.length (offeredTexts m config s)).length := by
      have hpieces : b.pieces = noticePieces notice ++ fitting (total (noticePieces notice))
          (affordable s.keys.remaining (readyTexts m config (s.pending.take 4))) :=
        offerRows_pieces hb
      rw [hpieces,total_noticePieces,offeredTexts,if_pos hmode,List.length_append]
      omega
    change _ = (eligibleRows m config (s.pending.take 4)).take
      (b.pieces.length - (noticePieces notice).length) at hfirst
    rw [← hcount,← hfirst,offeredBetween,hoffer]
    -- the rows behind the oldest four stay received
    have hrest := offerRows_behind hb rfl
    conv_lhs => rw [← List.take_append_drop 4 s.pending]
    rw [List.filter_append]
    have hnil : (s.pending.drop 4).filter (fun r =>
        decide ((b.store.setKeys (updateRemaining b.remaining)).status r.key = some .hookOffered)) =
        [] := by
      rw [List.filter_eq_nil_iff]
      intro r hr
      rw [Store.status_setKeys,hrest r hr]
      decide
    rw [hnil,List.append_nil]
    rfl
  · have hoffer : offer m config notice s = s := by
      rw [offer,offerBatch,if_pos (by simpa using hmode)]
    rw [hoffer,offeredTexts,if_neg hmode,fitting,List.length_nil,List.take_zero,offeredBetween,
      List.filter_eq_nil_iff]
    intro r hr
    rw [Store.status_of_mem_pending hr]
    decide

end

end PeerChat
