import PeerChat.Serve.Loop

/-! What one connection has stored is a matter of its own bytes, and what a listener holds is bounded,
over every history of connections. -/
namespace PeerChat.Serve
open Python Wire Interleaving

variable {U : Interp}

/-! A history as signals to the clients. -/

/-- The signals of a history. -/
def signals (U : Interp) : Listening → List Happening → List (Signal Client Stimulus)
  | _, [] => []
  | s, e::es => s.signal e :: signals U (s.next U e) es

lemma listen_clients (s : Listening) (es : List Happening) :
    (listen U s es).clients = s.clients.run (client U) (signals U s es) := by
  induction es generalizing s with
  | nil => rfl
  | cons e es ih => exact ih (s.next U e)

lemma signal_own (s : Listening) (e : Happening) (n : ℕ) : (s.signal e).own n = e.own n := by
  cases e with
  | connect c now => rfl
  | readable m r => rfl
  | sweep clock => rfl

lemma signals_own (s : Listening) (es : List Happening) (n : ℕ) :
    (signals U s es).filterMap (Signal.own n) = es.filterMap (Happening.own n) := by
  induction es generalizing s with
  | nil => rfl
  | cons e es ih => rw [signals,List.filterMap_cons,List.filterMap_cons,signal_own,ih]

lemma listen_numbered (es : List Happening) : (listen U {} es).clients.Numbered := by
  rw [listen_clients]
  exact Demux.numbered_new.run _

lemma listen_append (s : Listening) (es fs : List Happening) :
    listen U s (es ++ fs) = listen U (listen U s es) fs := List.foldl_append

/-- In every history, what comes of a connection is what comes of it alone: of the client that its
accept step has added, and of its own reads and deadline checks. The other connections, accepted,
refused, read or closed in between, make no difference. -/
theorem connections_isolated (U : Interp) (es fs : List Happening) (c : Connection)
    (now : Monotonic) :
    (listen U {} (es ++ .connect c now :: fs)).clients.outOf (listen U {} es).clients.count =
      alone (client U) ((listen U {} es).added c now)
        (fs.filterMap (Happening.own (listen U {} es).clients.count)) := by
  generalize hs : listen U {} es = s
  have hnumbered : s.clients.Numbered := hs ▸ listen_numbered es
  have hopened : (s.next U (.connect c now)).clients.Numbered :=
    hnumbered.next (A := client U) (.opened (s.added c now))
  have hlookup : (s.next U (.connect c now)).clients.live.lookup s.clients.count =
      s.added c now := by
    change (s.clients.live ++ ((s.added c now).map _).toList).lookup _ = _
    rw [List.lookup_append,hnumbered.lookup_count]
    cases s.added c now with
    | none => rfl
    | some added => simp
  have hout : (s.next U (.connect c now)).clients.outOf s.clients.count = [] := hnumbered.outOf_count
  rw [listen_append,hs]
  change (listen U (s.next U (.connect c now)) fs).clients.outOf _ = _
  rw [listen_clients,(hopened.run_own _ (Nat.lt_succ_self s.clients.count)).2,hlookup,hout,
    signals_own,List.nil_append]

/-! What a client has stored, from the stream that it has sent. -/

lemma takeWhile_append_all {α : Type} {p : α → Bool} {xs : List α} (h : ∀ x ∈ xs, p x = true)
    (ys : List α) : (xs ++ ys).takeWhile p = xs ++ ys.takeWhile p := by
  induction xs with
  | nil => rfl
  | cons x xs ih =>
    rw [List.cons_append,List.takeWhile_cons_of_pos (h x (List.mem_cons_self ..)),
      ih fun y hy => h y (List.mem_cons_of_mem _ hy),List.cons_append]

/-- What the lines of a connection come to. -/
def decoded (U : Interp) (c : Client) (lines : List Bytes) : List Frame :=
  lines.filterMap fun line => decodeFrame U line c.address

lemma handleLines_eq (c : Client) (lines : List Bytes) :
    stored (handleLines U c lines).1 =
        ((decoded U c lines).takeWhile (storable c.peer)).map (fun f => (c.peer,f)) ∧
      ((handleLines U c lines).2 = true ↔ ∀ f ∈ decoded U c lines, storable c.peer f = true) := by
  induction lines with
  | nil => simp [handleLines,decoded,stored]
  | cons line lines ih =>
    unfold handleLines
    cases hf : decodeFrame U line c.address with
    | none =>
      have hdecoded : decoded U c (line::lines) = decoded U c lines :=
        List.filterMap_cons_none hf
      rw [hdecoded]
      exact ih
    | some f =>
      have hdecoded : decoded U c (line::lines) = f :: decoded U c lines :=
        List.filterMap_cons_some hf
      rw [hdecoded]
      dsimp only
      by_cases hs : storable c.peer f = true
      · rw [if_pos hs,List.takeWhile_cons_of_pos hs,List.map_cons,List.forall_mem_cons,← ih.1]
        refine ⟨rfl,?_⟩
        rw [ih.2]
        exact ⟨fun h => ⟨hs,h⟩,fun h => h.2⟩
      · rw [if_neg hs,List.takeWhile_cons_of_neg hs,List.forall_mem_cons]
        refine ⟨rfl,?_⟩
        constructor
        · intro h
          cases h
        · intro h
          exact absurd h.1 hs

/-- A client ends without anything stored, goes on unread, or has read something. -/
lemma client_cases (c : Client) (i : Stimulus) :
    (∃ os, client U c i = (os,none) ∧ stored os = []) ∨
    (client U c i = ([],some c) ∧ i.chunk = none) ∨
    ∃ bytes lines rest, i.chunk = some bytes ∧ feed c.buffer bytes = some (lines,rest) ∧
      client U c i = ((handleLines U c lines).1,
        if (handleLines U c lines).2 then some { c with buffer := rest } else none) := by
  cases i with
  | clock now =>
    by_cases hnow : c.deadline ≤ now
    · exact Or.inl ⟨[],by rw [client,if_pos hnow],rfl⟩
    · exact Or.inr (Or.inl ⟨by rw [client,if_neg hnow],rfl⟩)
  | received r =>
    cases r with
    | raised => exact Or.inl ⟨[.rejected],rfl,rfl⟩
    | data bytes =>
      cases bytes with
      | nil => exact Or.inl ⟨[],rfl,rfl⟩
      | cons b bytes =>
        cases hfeed : feed c.buffer (b::bytes) with
        | none => exact Or.inl ⟨[.rejected],by simp only [client,hfeed],rfl⟩
        | some p => exact Or.inr (Or.inr ⟨b::bytes,p.1,p.2,rfl,hfeed,by simp only [client,hfeed]⟩)

lemma feed_open {buffer bytes rest : Bytes} {lines : List Bytes}
    (h : feed buffer bytes = some (lines,rest)) : 10 ∉ rest ∧ rest.length ≤ MAX_LINE := by
  obtain ⟨segments,tail,hframed⟩ := exists_framed (buffer ++ bytes)
  rw [hframed.feed_eq] at h
  split_ifs at h with hfits
  cases h
  exact ⟨hframed.tail_line,hfits _ (by simp)⟩

/-- A client has stored what the lines of its reads come to, up to the first that cannot be. -/
lemma alone_stored (is : List Stimulus) (c : Client) :
    ∃ chunks lines rest, chunks <+: is.filterMap Stimulus.chunk ∧
      feedAll c.buffer chunks = some (lines,rest) ∧
      stored (alone (client U) (some c) is) =
        ((decoded U c lines).takeWhile (storable c.peer)).map fun f => (c.peer,f) := by
  induction is generalizing c with
  | nil => exact ⟨[],[],c.buffer,List.nil_prefix,rfl,rfl⟩
  | cons i is ih =>
    rw [alone]
    obtain ⟨os,hi,hos⟩ | ⟨hi,hchunk⟩ | ⟨bytes,lines,rest,hchunk,hfeed,hi⟩ := client_cases (U := U) c i
    · refine ⟨[],[],c.buffer,List.nil_prefix,rfl,?_⟩
      rw [hi,alone_none,List.append_nil,hos]
      rfl
    · rw [hi,List.filterMap_cons_none hchunk]
      exact ih c
    · obtain ⟨hlines,hall⟩ := handleLines_eq (U := U) c lines
      rw [hi,List.filterMap_cons_some hchunk]
      by_cases hend : (handleLines U c lines).2 = true
      · obtain ⟨chunks,more,last,hchunks,hmore,hstored⟩ := ih { c with buffer := rest }
        refine ⟨bytes::chunks,lines ++ more,last,List.cons_prefix_cons.mpr ⟨rfl,hchunks⟩,?_,?_⟩
        · simp only [feedAll,hfeed,Option.bind_eq_bind,Option.bind_some]
          rw [hmore]
          rfl
        · have hsplit : decoded U c (lines ++ more) = decoded U c lines ++ decoded U c more :=
            List.filterMap_append
          have hwhole := takeWhile_append_all (hall.mp hend) []
          rw [List.append_nil,List.takeWhile_nil,List.append_nil] at hwhole
          rw [hwhole] at hlines
          rw [hsplit,takeWhile_append_all (hall.mp hend),List.map_append,if_pos hend]
          unfold stored at hlines hstored ⊢
          rw [List.filterMap_append,hlines,hstored]
          rfl
      · refine ⟨[bytes],lines,rest,List.cons_prefix_cons.mpr ⟨rfl,List.nil_prefix⟩,?_,?_⟩
        · simp [feedAll,hfeed]
        · rw [if_neg hend,alone_none,List.append_nil,hlines]

/-- What a connection has had stored over a whole history comes from its own stream: from the terminated
lines of a part of what it has sent, however that was cut into reads, each decoded as a frame of the
endpoint that its accept step has verified, and stored under the peer found there. A connection that was
refused has nothing stored. -/
theorem stored_from_stream (U : Interp) (es fs : List Happening) (c : Connection)
    (now : Monotonic) :
    let n := (listen U {} es).clients.count
    ∃ chunks segments tail,
      chunks <+: (fs.filterMap (Happening.own n)).filterMap Stimulus.chunk ∧
      Framed chunks.flatten segments tail ∧
      (listen U {} (es ++ .connect c now :: fs)).storedBy n =
        match ((listen U {} es).accept c).2 with
        | none => []
        | some (peer,e) => ((((segments.filter (· ≠ [])).filterMap fun line =>
            decodeFrame U line (str "uds:" ++ e.socket)).takeWhile (storable peer)).map
              fun f => (peer,f)) := by
  dsimp only
  unfold Listening.storedBy
  rw [connections_isolated,Listening.added]
  cases ((listen U {} es).accept c).2 with
  | none =>
    refine ⟨[],[],[],List.nil_prefix,⟨rfl,by simp,by simp⟩,?_⟩
    rw [Option.map_none,alone_none]
    rfl
  | some p =>
    obtain ⟨peer,e⟩ := p
    obtain ⟨chunks,lines,rest,hchunks,hfeed,hstored⟩ := alone_stored (U := U)
      (fs.filterMap (Happening.own (listen U {} es).clients.count))
      { deadline := now+CONNECTION_TTL, peer := peer, endpoint := e }
    obtain ⟨segments,tail,hframed,-,hlines⟩ := framing_independent chunks chunks.length
    rw [List.take_length] at hframed hlines
    obtain ⟨rfl,-⟩ := hlines lines rest hfeed
    exact ⟨chunks,segments,tail,hchunks,hframed,hstored⟩

/-! What a listener holds. -/

/-- An unterminated part of a line that may still become one. -/
def Client.Open (c : Client) : Prop := 10 ∉ c.buffer ∧ c.buffer.length ≤ MAX_LINE

/-- A client that goes on is the same but for its buffer, and its deadline has not passed. -/
lemma client_kept {c c' : Client} {i : Stimulus} (h : (client U c i).2 = some c') :
    c' = { c with buffer := c'.buffer } ∧ (c.Open → c'.Open) ∧
      ∀ now, i = .clock now → now < c.deadline := by
  obtain ⟨os,hi,-⟩ | ⟨hi,hchunk⟩ | ⟨bytes,lines,rest,hchunk,hfeed,hi⟩ := client_cases (U := U) c i
  · rw [hi] at h
    cases h
  · rw [hi] at h
    cases h
    refine ⟨rfl,id,fun now hnow => ?_⟩
    subst hnow
    by_contra hpassed
    rw [client,if_pos (not_lt.mp hpassed)] at hi
    cases hi
  · rw [hi] at h
    dsimp only at h
    split_ifs at h
    cases h
    refine ⟨rfl,fun _ => feed_open hfeed,fun now hnow => ?_⟩
    subst hnow
    cases hchunk

/-- Where a client comes from: it has been found by its accept step, and no deadline check since has
come too late for it. -/
def Admitted (U : Interp) (es : List Happening) (n : ℕ) (c : Client) : Prop :=
  ∃ before conn now later, es = before ++ .connect conn now :: later ∧
    (listen U {} before).clients.count = n ∧
    ((listen U {} before).accept conn).2 = some (c.peer,c.endpoint) ∧
    c.deadline = now+CONNECTION_TTL ∧ ∀ clock, .sweep clock ∈ later → clock n < c.deadline

lemma Admitted.later {es : List Happening} {n : ℕ} {c c' : Client} {e : Happening}
    (h : Admitted U es n c) (hc : c' = { c with buffer := c'.buffer })
    (he : ∀ clock, e = .sweep clock → clock n < c.deadline) : Admitted U (es ++ [e]) n c' := by
  obtain ⟨before,conn,now,later,rfl,hcount,hfound,hdeadline,hsweeps⟩ := h
  rw [hc]
  refine ⟨before,conn,now,later ++ [e],by simp,hcount,hfound,hdeadline,fun clock hclock => ?_⟩
  obtain hclock | hclock := List.mem_append.mp hclock
  · exact hsweeps clock hclock
  · exact he clock (List.mem_singleton.mp hclock).symm

/-- An accept step that finds a peer has had room for it. -/
lemma accept_room {s : Listening} {c : Connection} {found : Str × Endpoint}
    (h : (s.accept c).2 = some found) : s.clients.live.length < MAX_CLIENTS := by
  by_contra hfull
  have hadmitted : ¬ ({ c with clients := s.clients.live.length } : Connection).admitted = true := by
    simp [Connection.admitted,hfull]
  unfold Listening.accept at h
  rw [accept_refused hadmitted] at h
  cases h

/-- In every history a listener has at most `MAX_CLIENTS` clients, each with less than a line and its
newline in its buffer. All of them have been verified by their accept step, and at no check of its
deadline since has one been there for `CONNECTION_TTL`. -/
theorem listener_bounded (U : Interp) (es : List Happening) :
    (listen U {} es).clients.live.length ≤ MAX_CLIENTS ∧
      ∀ p ∈ (listen U {} es).clients.live, p.2.Open ∧ Admitted U es p.1 p.2 := by
  induction es using List.reverseRecOn with
  | nil => exact ⟨Nat.zero_le _,fun p hp => by cases hp⟩
  | append_singleton es e ih =>
    obtain ⟨hlength,hlive⟩ := ih
    rw [listen_append]
    change ((listen U {} es).next U e).clients.live.length ≤ _ ∧
      ∀ p ∈ ((listen U {} es).next U e).clients.live, _
    -- the clients that were there before take what there is for them
    have hdeliver : ∀ f : ℕ → Option Stimulus, (listen U {} es).signal e = .deliver f →
        (∀ n clock, e = .sweep clock → f n = some (.clock (clock n))) →
        ((listen U {} es).next U e).clients.live.length ≤ MAX_CLIENTS ∧
          ∀ p ∈ ((listen U {} es).next U e).clients.live,
            p.2.Open ∧ Admitted U (es ++ [e]) p.1 p.2 := by
      intro f hf hclock
      unfold Listening.next
      simp only [hf,Demux.next]
      refine ⟨(List.length_filterMap_le ..).trans hlength,fun p hp => ?_⟩
      obtain ⟨q,hq,hp⟩ := List.mem_filterMap.mp hp
      obtain ⟨c,hc,rfl⟩ := Option.map_eq_some_iff.mp hp
      obtain ⟨hopen,hadmitted⟩ := hlive q hq
      cases hi : f q.1 with
      | none =>
        rw [hi] at hc
        cases hc
        refine ⟨hopen,hadmitted.later rfl fun clock he => ?_⟩
        cases (hclock q.1 clock he).symm.trans hi
      | some i =>
        rw [hi] at hc
        obtain ⟨hsame,hopen',hdeadline⟩ := client_kept hc
        refine ⟨hopen' hopen,hadmitted.later hsame fun clock he => hdeadline _ ?_⟩
        exact Option.some.inj (hi.symm.trans (hclock q.1 clock he))
    cases e with
    | readable m r => exact hdeliver _ rfl fun n clock he => by cases he
    | sweep clock => exact hdeliver _ rfl fun n clock' he => by cases he; rfl
    | connect c now =>
      have hold : ∀ p ∈ (listen U {} es).clients.live,
          p.2.Open ∧ Admitted U (es ++ [.connect c now]) p.1 p.2 := fun p hp =>
        ⟨(hlive p hp).1,(hlive p hp).2.later rfl fun clock he => by cases he⟩
      unfold Listening.next Listening.signal
      simp only [Demux.next,Listening.added]
      cases hfound : ((listen U {} es).accept c).2 with
      | none => simpa using ⟨hlength,fun n c hc => hold (n,c) hc⟩
      | some found =>
        have hroom := accept_room hfound
        simp only [Option.map_some,Option.toList_some,List.length_append,List.length_singleton]
        refine ⟨hroom,fun p hp => ?_⟩
        obtain hp | hp := List.mem_append.mp hp
        · exact hold p hp
        · rw [List.mem_singleton.mp hp]
          exact ⟨⟨by simp,by simp⟩,es,c,now,[],by simp,rfl,hfound,rfl,by simp⟩

end PeerChat.Serve
