import Liblcb.Threadpool.OneByOne

/-!
# The steps of a one by one broadcast

A step of the process that has the record, for each place it may be at.
-/

namespace Threadpool

namespace OneByOne

variable {α : Type} [DecidableEq α]

/-- Behind the place that the tail step sets, the pool of the caller has no other thread. -/
def PoolEnds (w : Walk α) : Prop :=
  selfLast w.flags → ∀ u ∈ (w.pool w.src).drop (w.threads.length + 1), u = w.src

omit [DecidableEq α] in
theorem poolOf_walking {w : Walk α} {log : List (Event α)} {who : Who α} (h : Walking w log who) : poolOf w who = w.threads := by
  cases who with
  | sender => rfl
  | proxy t => exact w.pool_threads t h.1
  | caller => rfl

namespace Inv

variable {w : Walk α} {s : St α} {who : Who α}

theorem of_pending (h : Inv w s) (hheld : Held w s who) (hpc : s.pc who = .pending) :
    Inv w ({ s with core := s.core.touch.emit (.call (who.thread w.toCall)) }.goto who .inCb) := by
  have hplace := hheld.place
  have hsends := hheld.sends
  have herrors := hheld.errors
  have hcalls := hheld.calls
  rw [hpc] at hplace hsends herrors hcalls
  simp only [Pc.ahead, Pc.behind, Pc.inside] at hsends herrors hcalls
  rw [hheld.touch_eq]
  have hcore := h.core.emit hheld.tokens (e := .call (who.thread w.toCall)) rfl
  -- what is known of the thread: it was not called, and it is its turn
  have hknown : Event.call (who.thread w.toCall) ∉ s.core.log ∧
      (who.thread w.toCall ∈ w.threads ∨ who.thread w.toCall = w.src) ∧
      Turn w s.core.log (who.thread w.toCall) ∧
      (has w.flags selfSkip → who.thread w.toCall ≠ w.src) ∧
      Place w (.call (who.thread w.toCall) :: s.core.log) s.core.curThrIdx who .inCb := by
    rcases hplace with ⟨t, rfl, hsrc, hget, hbefore⟩ | ⟨rfl, hlast, hcur, hnot⟩
    · have hmem := List.mem_of_getElem? hget
      exact ⟨hbefore.fresh _ t (Nat.le_refl _) hget hsrc, .inl hmem, hbefore.turn hcalls, fun _ => hsrc,
        .inl ⟨⟨hmem, hsrc, List.mem_cons_self⟩, by simp, hbefore.call hget hsrc⟩⟩
    · obtain ⟨hskip, hfirst⟩ := selfLast_iff w.flags hlast
      refine ⟨hnot, .inr rfl, ⟨hcalls, fun _ => hnot, fun _ => .inl rfl⟩, ?_, .inr ⟨rfl, hlast, hcur⟩⟩
      intro hs
      rw [hskip] at hs
      cases hs
  obtain ⟨hnot, honly, hturn, hskip, hinside⟩ := hknown
  refine ⟨hcore, h.trace.call hnot honly hturn hskip, .inl ⟨who, hheld.move hinside hheld.tokens ?_ ?_ ?_⟩⟩
  · simpa [Core.emit, Event.isCall, Pc.ahead, List.countP_cons] using hsends
  · simpa [Core.emit, Event.isFailed, Pc.behind, List.countP_cons] using herrors
  · simpa [Core.emit, Event.isCall, Event.isRet, Pc.inside, List.countP_cons] using hcalls

theorem of_inCb (h : Inv w s) (hheld : Held w s who) (hpc : s.pc who = .inCb) :
    Inv w ({ s with core := s.core.emit (.ret (who.thread w.toCall)) }.goto who .next) := by
  have hplace := hheld.place
  have hsends := hheld.sends
  have herrors := hheld.errors
  have hcalls := hheld.calls
  rw [hpc] at hplace hsends herrors hcalls
  simp only [Pc.ahead, Pc.behind, Pc.inside] at hsends herrors hcalls
  have hcore := h.core.emit hheld.tokens (e := .ret (who.thread w.toCall)) rfl
  have hnext : Place w (.ret (who.thread w.toCall) :: s.core.log) s.core.curThrIdx who .next := by
    rcases hplace with ⟨hwalk, hne, hbefore⟩ | hsrc
    · exact .inl ⟨hwalk.cons _, hne, hbefore.cons rfl⟩
    · exact .inr hsrc
  refine ⟨hcore, h.trace.cons rfl, .inl ⟨who, hheld.move hnext hheld.tokens ?_ ?_ ?_⟩⟩
  · simpa [Core.emit, Event.isCall, Pc.ahead, List.countP_cons] using hsends
  · simpa [Core.emit, Event.isFailed, Pc.behind, List.countP_cons] using herrors
  · simpa [Core.emit, Event.isCall, Event.isRet, Pc.inside, List.countP_cons] using hcalls

theorem of_next (h : Inv w s) (hheld : Held w s who) (hpc : s.pc who = .next) :
    Inv w ({ s with core := { s.core.touch with curThrIdx := s.core.curThrIdx + 1 } }.goto who .walk) := by
  have hplace := hheld.place
  have hsends := hheld.sends
  have herrors := hheld.errors
  have hcalls := hheld.calls
  rw [hpc] at hplace hsends herrors hcalls
  rw [hheld.touch_eq]
  have hcore := h.core.write hheld.tokens s.core.activeThrCount (s.core.curThrIdx + 1) s.core.sendMsgCnt
    s.core.errorCnt
  have hwalk : Place w s.core.log (s.core.curThrIdx + 1) who .walk := by
    rcases hplace with ⟨hwalk, -, hbefore⟩ | ⟨rfl, hlast, hcur⟩
    · exact .inl ⟨hwalk, hbefore⟩
    · exact .inr ⟨rfl, hlast, by omega⟩
  exact ⟨hcore, h.trace, .inl ⟨who, hheld.move hwalk hheld.tokens hsends herrors hcalls⟩⟩

/-- One turn of the loop; `tpt_msg_cbsend` does not come to its end. -/
theorem of_walk (hpool : PoolEnds w) (h : Inv w s) (hheld : Held w s who) (hpc : s.pc who = .walk)
    (hgood : who = .sender → s.core.curThrIdx < w.threads.length) : Inv w (walkStep w who s) := by
  have hplace := hheld.place
  have hsends := hheld.sends
  have herrors := hheld.errors
  have hcalls := hheld.calls
  rw [hpc] at hplace hsends herrors hcalls
  simp only [Pc.ahead, Pc.behind, Pc.inside] at hsends herrors hcalls
  unfold walkStep
  rw [hheld.touch_eq]
  cases hget : (poolOf w who)[s.core.curThrIdx]? with
  | none =>
    -- the end of the pool
    have hne : who ≠ .sender := by
      rintro rfl
      exact absurd (hgood rfl) (Nat.not_lt.mpr (List.getElem?_eq_none_iff.mp hget))
    have htail : Place w s.core.log s.core.curThrIdx who .tail := by
      rcases hplace with ⟨hwalk, hbefore⟩ | ⟨hsrc, -⟩
      · exact .inl ⟨hwalk, hne, hbefore⟩
      · exact .inr hsrc
    simp only [if_neg hne]
    exact ⟨h.core, h.trace, .inl ⟨who, hheld.move htail hheld.tokens hsends herrors hcalls⟩⟩
  | some u =>
    by_cases hu : u = w.src
    · -- the caller is passed over
      simp only [if_pos hu]
      have hcore := h.core.write hheld.tokens s.core.activeThrCount (s.core.curThrIdx + 1)
        s.core.sendMsgCnt s.core.errorCnt
      have hwalk : Place w s.core.log (s.core.curThrIdx + 1) who .walk := by
        rcases hplace with ⟨hwalk, hbefore⟩ | ⟨hsrc, hlast, hcur⟩
        · rw [poolOf_walking hwalk] at hget
          exact .inl ⟨hwalk, hbefore.mono (Nat.le_succ _) (List.getElem?_eq_some_iff.mp hget).1⟩
        · exact .inr ⟨hsrc, hlast, by omega⟩
      refine ⟨hcore, h.trace, .inl ⟨who, hheld.mem, hheld.quiet, ?_, hheld.tokens, ?_, ?_, ?_⟩⟩
      · simp only [hpc]
        exact hwalk
      · simp only [hpc]
        exact hsends
      · simp only [hpc]
        exact herrors
      · simp only [hpc]
        exact hcalls
    · simp only [if_neg hu]
      have hcore := h.core.write hheld.tokens s.core.activeThrCount s.core.curThrIdx
        (s.core.sendMsgCnt + 1) s.core.errorCnt
      have hsend : Place w s.core.log s.core.curThrIdx who (.send u) := by
        rcases hplace with ⟨hwalk, hbefore⟩ | ⟨rfl, hlast, hcur⟩
        · rw [poolOf_walking hwalk] at hget
          exact ⟨hwalk, hbefore, hget, hu⟩
        · -- the pool of the caller ends here
          refine absurd (hpool hlast u ?_) hu
          refine List.mem_of_getElem? (i := s.core.curThrIdx - (w.threads.length + 1)) ?_
          rw [List.getElem?_drop, show w.threads.length + 1 +
            (s.core.curThrIdx - (w.threads.length + 1)) = s.core.curThrIdx by omega]
          exact hget
      refine ⟨hcore, h.trace, .inl ⟨who, hheld.move hsend hheld.tokens ?_ herrors hcalls⟩⟩
      simp only [Pc.ahead]
      omega

theorem of_deliver (h : Inv w s) (hheld : Held w s who) {u : α} {written : Bool} {onError : Pc α}
    (hne : who ≠ .proxy u) (hplace : Place w s.core.log s.core.curThrIdx (.proxy u) .pending)
    (hahead : (s.pc who).ahead = 1) (hbehind : (s.pc who).behind = 0) (hinside : (s.pc who).inside = 0)
    (herror : Place w (.failed u :: s.core.log) s.core.curThrIdx who onError)
    (hcount : onError.ahead = 1 ∧ onError.behind = 1 ∧ onError.inside = 0) :
    Inv w (s.deliver w who u written onError) := by
  have hsends := hheld.sends
  have herrors := hheld.errors
  have hcalls := hheld.calls
  rw [hahead] at hsends
  rw [hbehind] at herrors
  rw [hinside] at hcalls
  unfold St.deliver
  cases tptMsgSend w.running w.flags u (who.thread w.toCall) written with
  | direct =>
    exact ⟨h.core.emit hheld.tokens rfl, h.trace.cons rfl,
      .inl ⟨_, hheld.pass hheld.mem hne hplace hahead hbehind hinside⟩⟩
  | queued =>
    exact ⟨h.core.emit hheld.tokens rfl, h.trace.cons rfl,
      .inl ⟨_, hheld.pass hheld.mem hne hplace hahead hbehind hinside⟩⟩
  | failed =>
    refine ⟨h.core.emit hheld.tokens rfl, h.trace.cons rfl,
      .inl ⟨who, hheld.move herror hheld.tokens ?_ ?_ ?_⟩⟩
    · rw [hcount.1]
      simpa [Core.emit, Event.isCall, List.countP_cons] using hsends
    · rw [hcount.2.1]
      simpa [Core.emit, Event.isFailed, List.countP_cons] using herrors
    · rw [hcount.2.2]
      simpa [Core.emit, Event.isCall, Event.isRet, List.countP_cons] using hcalls

theorem of_send (h : Inv w s) (hheld : Held w s who) {u : α} {written : Bool} (hpc : s.pc who = .send u) :
    Inv w (s.deliver w who u written .failed) := by
  have hplace := hheld.place
  rw [hpc] at hplace
  obtain ⟨hwalk, hbefore, hget, hu⟩ := hplace
  have hnext := hbefore.mono (Nat.le_succ _) (List.getElem?_eq_some_iff.mp hget).1
  refine h.of_deliver hheld ?_ (.inl ⟨u, rfl, hu, hget, hbefore⟩) (by rw [hpc]; rfl) (by rw [hpc]; rfl)
    (by rw [hpc]; rfl) ⟨hwalk.cons _, hnext.cons rfl⟩ ⟨rfl, rfl, rfl⟩
  -- a thread that walks was called, and the next one was not
  rintro rfl
  exact hbefore.fresh _ u (Nat.le_refl _) hget hu hwalk.2.2

theorem of_failed (h : Inv w s) (hheld : Held w s who) (hpc : s.pc who = .failed) :
    Inv w ({ s with core := { s.countError.core with curThrIdx := s.core.curThrIdx + 1 } }.goto who
      .walk) := by
  have hplace := hheld.place
  have hsends := hheld.sends
  have herrors := hheld.errors
  have hcalls := hheld.calls
  rw [hpc] at hplace hsends herrors hcalls
  simp only [Pc.ahead, Pc.behind, Pc.inside] at hsends herrors hcalls
  unfold St.countError
  rw [hheld.touch_eq]
  have hcore := h.core.write hheld.tokens s.core.activeThrCount (s.core.curThrIdx + 1)
    (s.core.sendMsgCnt - 1) (s.core.errorCnt + 1)
  have hwalk : Place w s.core.log (s.core.curThrIdx + 1) who .walk :=
    .inl ⟨hplace.1, hplace.2⟩
  refine ⟨hcore, h.trace, .inl ⟨who, hheld.move hwalk hheld.tokens ?_ ?_ hcalls⟩⟩
  · simp only [Pc.ahead]
    omega
  · simp only [Pc.behind]
    omega

theorem of_tail (h : Inv w s) (hheld : Held w s who) (hpc : s.pc who = .tail) :
    Inv w (tailStep w who s) := by
  have hplace := hheld.place
  have hsends := hheld.sends
  have herrors := hheld.errors
  have hcalls := hheld.calls
  rw [hpc] at hplace hsends herrors hcalls
  simp only [Pc.ahead, Pc.behind, Pc.inside] at hsends herrors hcalls
  unfold tailStep
  rw [hheld.touch_eq]
  by_cases hlast : selfLast w.flags = true ∧ w.src ≠ who.thread w.toCall
  · -- it is the turn of the caller
    simp only [if_pos hlast]
    have hcore := h.core.write hheld.tokens s.core.activeThrCount (poolOf w who).length
      (s.core.sendMsgCnt + 1) s.core.errorCnt
    have hsend : Place w s.core.log (poolOf w who).length who .tailSend := by
      rcases hplace with ⟨hwalk, hne, hbefore⟩ | rfl
      · rw [poolOf_walking hwalk]
        refine ⟨hwalk, hne, hlast.1, rfl, Nat.le_refl _, ?_, hbefore.first, hbefore.last⟩
        intro j u hj hget
        rw [List.getElem?_eq_none hj] at hget
        cases hget
      · exact absurd rfl hlast.2
    refine ⟨hcore, h.trace, .inl ⟨who, hheld.move hsend hheld.tokens ?_ herrors hcalls⟩⟩
    simp only [Pc.ahead]
    omega
  · simp only [if_neg hlast]
    obtain ⟨hcore, hended⟩ := hheld.finish h.core hheld.tokens hsends herrors hcalls
    exact ⟨hcore, h.trace, .inr hended⟩

theorem of_tailSend (h : Inv w s) (hheld : Held w s who) {written : Bool} (hpc : s.pc who = .tailSend) :
    Inv w (s.deliver w who w.src written .tailFailed) := by
  have hplace := hheld.place
  rw [hpc] at hplace
  obtain ⟨hwalk, hne, hlast, hcur, hbefore⟩ := hplace
  have hnot := hbefore.last (selfLast_iff w.flags hlast).2
  refine h.of_deliver hheld ?_ (.inr ⟨rfl, hlast, hcur, hnot⟩) (by rw [hpc]; rfl) (by rw [hpc]; rfl)
    (by rw [hpc]; rfl) ⟨hwalk.cons _, hne, hlast, hcur, hbefore.cons rfl⟩ ⟨rfl, rfl, rfl⟩
  rintro rfl
  exact hwalk.2.1 rfl

theorem of_tailFailed (h : Inv w s) (hheld : Held w s who) (hpc : s.pc who = .tailFailed) :
    Inv w (s.countError.finish who) := by
  have hsends := hheld.sends
  have herrors := hheld.errors
  have hcalls := hheld.calls
  rw [hpc] at hsends herrors hcalls
  simp only [Pc.ahead, Pc.behind, Pc.inside] at hsends herrors hcalls
  unfold St.countError
  rw [hheld.touch_eq]
  have hcore := h.core.write hheld.tokens s.core.activeThrCount s.core.curThrIdx
    (s.core.sendMsgCnt - 1) (s.core.errorCnt + 1)
  obtain ⟨hcore, hended⟩ := hheld.finish hcore hheld.tokens (by simp only; omega) herrors hcalls
  exact ⟨hcore, h.trace, .inr hended⟩

theorem of_self (h : Inv w s) (hheld : Held w s who) (hpc : s.pc who = .self) :
    Inv w ({ s with
      core := ({ s.core.touch with sendMsgCnt := s.core.sendMsgCnt + 1 } : Core α).emit (.call w.src)
      }.goto who .inSelf) := by
  have hplace := hheld.place
  have hsends := hheld.sends
  have herrors := hheld.errors
  have hcalls := hheld.calls
  rw [hpc] at hplace hsends herrors hcalls
  simp only [Pc.ahead, Pc.behind, Pc.inside] at hsends herrors hcalls
  obtain ⟨hwho, hfirst, hle, hnone⟩ := hplace
  rw [hheld.touch_eq]
  have hwrite := h.core.write hheld.tokens s.core.activeThrCount s.core.curThrIdx
    (s.core.sendMsgCnt + 1) s.core.errorCnt
  have hcore := hwrite.emit hheld.tokens (e := .call w.src) rfl
  have hturn : Turn w s.core.log w.src := ⟨hcalls, fun _ => hnone w.src, fun _ => .inl rfl⟩
  have hskip : has w.flags selfSkip → w.src ≠ w.src := by
    intro hs
    rw [selfFirst_iff w.flags hfirst] at hs
    cases hs
  have hinside : Place w (.call w.src :: s.core.log) s.core.curThrIdx who .inSelf := by
    refine ⟨hwho, hle, ?_, fun _ => List.mem_cons_self, fun hlast => ?_⟩
    · intro j u _ _ hu hmem
      rcases List.mem_cons.mp hmem with heq | hmem
      · cases heq
        exact hu rfl
      · exact hnone u hmem
    · rw [hfirst] at hlast
      cases hlast
  refine ⟨hcore, h.trace.call (hnone w.src) (.inr rfl) hturn hskip,
    .inl ⟨who, hheld.move hinside hheld.tokens ?_ ?_ ?_⟩⟩
  · simpa [Core.emit, Event.isCall, Pc.ahead, List.countP_cons] using hsends
  · simpa [Core.emit, Event.isFailed, Pc.behind, List.countP_cons] using herrors
  · simpa [Core.emit, Event.isCall, Event.isRet, Pc.inside, List.countP_cons] using hcalls

theorem of_inSelf (h : Inv w s) (hheld : Held w s who) (hpc : s.pc who = .inSelf) :
    Inv w ({ s with core := s.core.emit (.ret w.src) }.goto who .walk) := by
  have hplace := hheld.place
  have hsends := hheld.sends
  have herrors := hheld.errors
  have hcalls := hheld.calls
  rw [hpc] at hplace hsends herrors hcalls
  simp only [Pc.ahead, Pc.behind, Pc.inside] at hsends herrors hcalls
  obtain ⟨rfl, hbefore⟩ := hplace
  have hcore := h.core.emit hheld.tokens (e := .ret w.src) rfl
  have hwalk : Place w (.ret w.src :: s.core.log) s.core.curThrIdx .sender .walk :=
    .inl ⟨trivial, hbefore.cons rfl⟩
  refine ⟨hcore, h.trace.cons rfl, .inl ⟨_, hheld.move hwalk hheld.tokens ?_ ?_ ?_⟩⟩
  · simpa [Core.emit, Event.isCall, Pc.ahead, List.countP_cons] using hsends
  · simpa [Core.emit, Event.isFailed, Pc.behind, List.countP_cons] using herrors
  · simpa [Core.emit, Event.isCall, Event.isRet, Pc.inside, List.countP_cons] using hcalls

end Inv

end OneByOne

end Threadpool
