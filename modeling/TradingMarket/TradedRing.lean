import TradingMarket.Service

/-! # The traded-order ring

`match()` commits every trade through a `Put` that waits for the cursor of
`PUB_TRADED_ORDER_GET`, and no thread of the service constructs that `Get`. So
the ring takes as many trades as it has slots, over the whole life of the
process: a commit begun after that waits for ever (`waitsForever_of_claim`), and
the ones before do not (`match_ends`). -/
namespace TradingMarket

open Lib (Machine)
open L3 (PutPc)

variable {nt : NumberText ℚ} {eps : ℚ} {blank : Order ℚ} {blankTrade : TradedOrder Unit}

/-! ## Slots, trades and the cursor nobody moves -/

/-- The slot the matching thread has claimed on the traded-order ring. -/
def MatchingPc.slot : MatchingPc → Option Nat
  | .committing _ (.waitBarrier slot) | .committing _ (.write slot)
  | .committing _ (.commit slot) => some slot
  | _ => none

/-- The matching thread's `Put` is past its wait for the barrier. -/
def MatchingPc.granted : MatchingPc → Bool
  | .committing _ (.write _) | .committing _ (.commit _) => true
  | _ => false

/-- Where the loops of `match()` are while the matching thread is at its position. -/
def Service.LoopPlace (eps : ℚ) (s : Service) : Prop :=
  match s.matching with
  | .waitBatch | .batch _ _ => s.run.pc = .idle
  | .matching => s.run.pc ≠ .idle
  | .committing t _ => ∃ l, loopStep eps s.run.loop = some (l, some t)

/-- The committed slots are the committed trades, one slot at most is claimed
beyond them, and no slot is granted that needs the consumer's cursor to move. -/
structure Service.Wired (eps : ℚ) (s : Service) : Prop where
  pubGet : s.pubGet = ringSize
  cursor : s.traded.cursor = ringSize + s.run.committed.length
  putCursor : s.traded.putCursor =
    if s.matching.slot.isSome then s.traded.cursor + 1 else s.traded.cursor
  slot : ∀ slot, s.matching.slot = some slot → slot = s.traded.cursor
  fits : s.run.committed.length ≤ ringSize
  granted : s.matching.granted = true → s.run.committed.length < ringSize
  place : s.LoopPlace eps

theorem tick_run {run : BookRun Unit} {l : Loop Unit} {t : Option (TradedOrder Unit)}
    (h : loopStep eps run.loop = some (l, t)) :
    (bookMachine eps).step run .tick = some ⟨l, run.added, run.committed ++ t.toList⟩ := by
  simp [bookMachine, bookStep, h]

theorem addOrder_run {run run' : BookRun Unit} {o : BookOrder Unit}
    (h : (bookMachine eps).step run (.addOrder o) = some run') :
    run'.committed = run.committed ∧ run'.pc = .idle := by
  cases bookStep_cases h
  exact ⟨rfl, rfl⟩

theorem callMatch_run {run run' : BookRun Unit}
    (h : (bookMachine eps).step run .callMatch = some run') :
    run'.committed = run.committed ∧ run'.pc = .outer 0 := by
  cases bookStep_cases h
  exact ⟨rfl, rfl⟩

/-- After a trade `match()` is in its inner loop. -/
theorem loopStep_trade_pc {l l' : Loop Unit} {t : TradedOrder Unit}
    (h : loopStep eps l = some (l', some t)) : l'.pc ≠ .idle := by
  cases loopStep_cases h with
  | @trade book i j matched a b _ mp =>
    obtain ⟨j', hpc⟩ := @afterCommit_pc Unit eps book t mp i j
    rw [hpc]
    exact LoopPc.noConfusion

theorem wired_start : (Service.start blank blankTrade).Wired eps :=
  ⟨rfl, rfl, rfl, nofun, Nat.zero_le _, nofun, rfl⟩

theorem Service.Wired.same {s s' : Service} (h : s.Wired eps) (hs : SameMatching s s') :
    s'.Wired eps := by
  obtain ⟨hrun, -, htraded, hpub, hmatching⟩ := hs
  obtain ⟨h1, h2, h3, h4, h5, h6, h7⟩ := h
  refine ⟨?_, ?_, ?_, ?_, ?_, ?_, ?_⟩
  · rw [hpub, h1]
  · rw [htraded, hrun, h2]
  · rw [htraded, hmatching, h3]
  · rw [htraded, hmatching]; exact h4
  · rw [hrun]; exact h5
  · rw [hrun, hmatching]; exact h6
  · unfold Service.LoopPlace
    rw [hrun, hmatching]
    exact h7

theorem Service.Wired.step {s s' : Service} (h : s.Wired eps) (hs : MatchingStep eps s s') :
    s'.Wired eps := by
  obtain ⟨hpub, hcursor, hput, hslot, hfits, hgranted, hplace⟩ := h
  unfold Service.LoopPlace at hplace
  cases hs with
  | spin => exact ⟨hpub, hcursor, hput, hslot, hfits, hgranted, hplace⟩
  | take hpc =>
    rw [hpc] at hput hplace
    exact ⟨hpub, hcursor, hput, nofun, hfits, nofun, hplace⟩
  | @add index last run hpc hne hrun =>
    obtain ⟨hcommitted, hidle⟩ := addOrder_run hrun
    rw [hpc] at hput
    rw [← hcommitted] at hcursor hfits
    exact ⟨hpub, hcursor, hput, nofun, hfits, nofun, hidle⟩
  | @call last run hpc hrun =>
    obtain ⟨hcommitted, houter⟩ := callMatch_run hrun
    rw [hpc] at hput
    rw [← hcommitted] at hcursor hfits
    exact ⟨hpub, hcursor, hput, nofun, hfits, nofun, fun hidle => by rw [houter] at hidle; cases hidle⟩
  | @loop l run hpc hl hrun =>
    rw [tick_run hl] at hrun
    cases hrun
    rw [hpc] at hput
    simp only [Option.toList_none, List.append_nil]
    by_cases hidle : l.pc = .idle
    · simp only [BookRun.pc, hidle, if_true]
      exact ⟨hpub, hcursor, hput, nofun, hfits, nofun, hidle⟩
    · simp only [BookRun.pc, hidle, if_false]
      exact ⟨hpub, hcursor, hput, nofun, hfits, nofun, hidle⟩
  | @start l t hpc hl =>
    rw [hpc] at hput
    exact ⟨hpub, hcursor, hput, nofun, hfits, nofun, l, hl⟩
  | @put t put traded put' hpc hstep =>
    rw [hpc] at hput hslot hgranted hplace
    cases L3.putStep_cases hstep with
    | claim =>
      exact ⟨hpub, hcursor, congrArg (· + 1) hput, fun slot h => (Option.some.inj h).symm.trans hput,
        hfits, nofun, hplace⟩
    | full => exact ⟨hpub, hcursor, hput, hslot, hfits, nofun, hplace⟩
    | @room slot hroom =>
      have hs : slot = s.traded.cursor := hslot slot rfl
      have hlt : s.run.committed.length < ringSize := by omega
      exact ⟨hpub, hcursor, hput, hslot, hfits, fun _ => hlt, hplace⟩
    | write => exact ⟨hpub, hcursor, hput, hslot, hfits, hgranted, hplace⟩
    | waitTurn => exact ⟨hpub, hcursor, hput, hslot, hfits, hgranted, hplace⟩
  | @committed t put traded run hpc hstep hrun =>
    rw [hpc] at hput hslot hgranted hplace
    obtain ⟨l, hl⟩ := hplace
    rw [tick_run hl] at hrun
    cases hrun
    cases L3.putStep_cases hstep with
    | commit =>
      have hlt : s.run.committed.length < ringSize := hgranted rfl
      refine ⟨hpub, ?_, hput, nofun, ?_, nofun, loopStep_trade_pc hl⟩
      · simp [hcursor]
        omega
      · simpa using Nat.succ_le_of_lt hlt

theorem Service.Wired.reaches {s s' : Service} (hw : s.Wired eps)
    (h : (serviceMachine nt eps blank blankTrade).Reaches s s') : s'.Wired eps := by
  refine h.preserves (fun u e v hu hstep => ?_) hw
  obtain ⟨-, ⟨-, hm⟩ | ⟨-, hsame⟩⟩ := serviceStep_cases hstep
  · exact hu.step hm
  · exact hu.same hsame

theorem service_wired {s : Service} (h : (serviceMachine nt eps blank blankTrade).Reachable s) :
    s.Wired eps :=
  wired_start.reaches h

/-! ## Waiting for ever -/

section Waiting
variable (nt : NumberText ℚ) (eps : ℚ) (blank : Order ℚ) (blankTrade : TradedOrder Unit)

/-- `match()` waits in a commit and does so in every later state of the process. -/
def WaitsForever (s : Service) : Prop :=
  s.alive = true ∧ ∃ t slot, s.matching = .committing t (.waitBarrier slot) ∧
    ∀ s', (serviceMachine nt eps blank blankTrade).Reaches s s' →
      s'.matching = .committing t (.waitBarrier slot)

/-- A commit is begun while fewer trades have been committed than the ring has slots. -/
def RoomAtClaim (s : Service) (e : ServiceEvent) : Prop :=
  e = .matchingStep → ∀ t, s.matching = .committing t .claim → s.run.committed.length < ringSize

end Waiting

theorem matchingStep_service {s s' : Service} (halive : s.alive = true)
    (h : s.matchingStep eps = some s') :
    (serviceMachine nt eps blank blankTrade).step s .matchingStep = some s' := by
  simp only [serviceMachine, serviceStep, halive, if_true, h]

theorem waitsForever_of_full {s : Service} (hw : s.Wired eps) (halive : s.alive = true)
    {t : TradedOrder Unit} {slot : Nat} (hpc : s.matching = .committing t (.waitBarrier slot))
    (hfull : ringSize ≤ s.run.committed.length) : WaitsForever nt eps blank blankTrade s := by
  refine ⟨halive, t, slot, hpc, fun s' hr => ?_⟩
  have hslot : s.pubGet ≤ slot - ringSize := by
    rw [hw.slot slot (by rw [hpc]; rfl), hw.pubGet, hw.cursor]
    omega
  -- the slot stays out of reach of a cursor that does not move
  have hkeep : ∀ u e v, (u.matching = .committing t (.waitBarrier slot) ∧
      u.pubGet ≤ slot - ringSize) →
      (serviceMachine nt eps blank blankTrade).step u e = some v →
      v.matching = .committing t (.waitBarrier slot) ∧ v.pubGet ≤ slot - ringSize := by
    intro u e v hkept hstep
    obtain ⟨hu, hget⟩ := hkept
    obtain ⟨-, ⟨-, hm⟩ | ⟨-, hsame⟩⟩ := serviceStep_cases hstep
    · cases hm with
      | spin h | take h | add h | call h | loop h | start h => rw [hu] at h; cases h
      | put h hput =>
        rw [hu] at h
        cases h
        cases L3.putStep_cases hput with
        | full => exact ⟨rfl, hget⟩
        | room hroom => exact absurd hget (Nat.not_le_of_lt hroom)
      | committed h hput =>
        rw [hu] at h
        cases h
        cases L3.putStep_cases hput
    · exact ⟨hsame.matching.trans hu, hsame.pubGet ▸ hget⟩
  exact (hr.preserves hkeep ⟨hpc, hslot⟩).1

theorem not_waitsForever {s : Service} (hw : s.Wired eps)
    (hroom : ∀ t slot, s.matching = .committing t (.waitBarrier slot) →
      s.run.committed.length < ringSize) : ¬ WaitsForever nt eps blank blankTrade s := by
  intro hwaits
  obtain ⟨halive, t, slot, hpc, hforever⟩ := hwaits
  have hslot : slot - ringSize < s.pubGet := by
    have hlt := hroom t slot hpc
    rw [hw.slot slot (by rw [hpc]; rfl), hw.pubGet, hw.cursor]
    omega
  have hstep : s.matchingStep eps = some { s with matching := .committing t (.write slot) } := by
    simp only [Service.matchingStep, hpc, L3.putStep_room hslot]
  have hafter := hforever _ (.single (matchingStep_service halive hstep))
  cases hafter

/-- A run that has committed fewer trades than the ring has slots had room at every claim. -/
theorem room_of_few_trades {es : List ServiceEvent} {s : Service}
    (h : (serviceMachine nt eps blank blankTrade).exec
      (serviceMachine nt eps blank blankTrade).start es = some s)
    (hfew : s.run.committed.length < ringSize) :
    (serviceMachine nt eps blank blankTrade).Along RoomAtClaim
      (serviceMachine nt eps blank blankTrade).start es := by
  refine Machine.along_iff.mpr fun fs e gs u hsplit hu _ _ _ => ?_
  rw [hsplit, Machine.exec_append, hu] at h
  exact (reaches_appends (service_reaches ⟨_, h⟩)).2.length_le.trans_lt hfew

/-- With room at every claim, a commit that waits has room. -/
theorem room_of_along {es : List ServiceEvent} {s : Service}
    (h : (serviceMachine nt eps blank blankTrade).exec
      (serviceMachine nt eps blank blankTrade).start es = some s)
    (hroom : (serviceMachine nt eps blank blankTrade).Along RoomAtClaim
      (serviceMachine nt eps blank blankTrade).start es) :
    ∀ t slot, s.matching = .committing t (.waitBarrier slot) →
      s.run.committed.length < ringSize := by
  have hstart : ∀ t slot, (serviceMachine nt eps blank blankTrade).start.matching =
      .committing t (.waitBarrier slot) →
      (serviceMachine nt eps blank blankTrade).start.run.committed.length < ringSize :=
    fun _ _ _ => ringSize_pos
  refine Machine.exec_preserves_along (P := fun u => ∀ t slot,
    u.matching = .committing t (.waitBarrier slot) → u.run.committed.length < ringSize)
    ?_ hstart hroom h
  intro u e v hclaim hu hstep t slot hpc
  obtain ⟨-, ⟨rfl, hm⟩ | ⟨-, hsame⟩⟩ := serviceStep_cases hstep
  · cases hm with
    | spin => exact hu t slot hpc
    | take | add | call | start | committed => cases hpc
    | @loop l run _ _ _ =>
      dsimp only at hpc
      split at hpc <;> cases hpc
    | @put t' put traded put' hm hput =>
      cases hpc
      cases L3.putStep_cases hput with
      | claim => exact hclaim rfl t hm
      | full => exact hu t slot hm
  · rw [hsame.run]
    exact hu t slot (hsame.matching ▸ hpc)

/-- A commit begun without room waits for ever from its next state on. -/
theorem waitsForever_of_claim {s : Service} (hw : s.Wired eps) (halive : s.alive = true)
    {t : TradedOrder Unit} (hpc : s.matching = .committing t .claim)
    (hfull : ringSize ≤ s.run.committed.length) :
    ∃ u, (serviceMachine nt eps blank blankTrade).step s .matchingStep = some u ∧
      WaitsForever nt eps blank blankTrade u := by
  have hstep : s.matchingStep eps = some { s with
      traded := { s.traded with putCursor := s.traded.putCursor + 1 }
      matching := .committing t (.waitBarrier s.traded.putCursor) } := by
    simp only [Service.matchingStep, hpc, L3.Disruptor.putStep]
  exact ⟨_, matchingStep_service halive hstep,
    waitsForever_of_full (hw.step (matchingStep_cases hstep)) halive rfl hfull⟩

/-! ## How `match()` gets on -/

/-- What the matching thread leaves to the request thread. -/
structure SameRequest (s s' : Service) : Prop where
  alive : s'.alive = s.alive
  orderTemplate : s'.orderTemplate = s.orderTemplate
  orders : s'.orders = s.orders
  ordersGet : s'.ordersGet = s.ordersGet
  request : s'.request = s.request

theorem SameRequest.trans {s u v : Service} (h : SameRequest s u) (h' : SameRequest u v) :
    SameRequest s v :=
  ⟨h'.alive.trans h.alive, h'.orderTemplate.trans h.orderTemplate, h'.orders.trans h.orders,
    h'.ordersGet.trans h.ordersGet, h'.request.trans h.request⟩

section Commit
variable (nt : NumberText ℚ) (eps : ℚ) (blank : Order ℚ) (blankTrade : TradedOrder Unit)

/-- By its own steps the matching thread gets to where it has committed the trade
`run` is about to commit, and subtracted it. -/
def CommitEnds (run : BookRun Unit) (s : Service) : Prop :=
  ∃ v, (serviceMachine nt eps blank blankTrade).Repeats .matchingStep s v ∧ SameRequest s v ∧
    v.matching = .matching ∧ (bookMachine eps).step run .tick = some v.run

end Commit

theorem CommitEnds.head {run : BookRun Unit} {s s' : Service} (halive : s.alive = true)
    (hstep : s.matchingStep eps = some s') (hsame : SameRequest s s')
    (h : CommitEnds nt eps blank blankTrade run s') :
    CommitEnds nt eps blank blankTrade run s := by
  obtain ⟨v, hrep, hsame', hpc, htick⟩ := h
  exact ⟨v, .head (matchingStep_service halive hstep) hrep, hsame.trans hsame', hpc, htick⟩

theorem commitEnds_commit {s : Service} (hw : s.Wired eps) (halive : s.alive = true)
    {t : TradedOrder Unit} {slot : Nat} (hpc : s.matching = .committing t (.commit slot)) :
    CommitEnds nt eps blank blankTrade s.run s := by
  have hplace := hw.place
  unfold Service.LoopPlace at hplace
  rw [hpc] at hplace
  obtain ⟨l, hl⟩ := hplace
  have hslot : slot ≤ s.traded.cursor := (hw.slot slot (by rw [hpc]; rfl)).le
  have htick := tick_run hl
  have hstep : s.matchingStep eps = some { s with
      traded := { s.traded with cursor := s.traded.cursor + 1 }
      run := ⟨l, s.run.added, s.run.committed ++ [t]⟩
      matching := .matching } := by
    have hbook : bookStep eps s.run .tick = some ⟨l, s.run.added, s.run.committed ++ [t]⟩ := htick
    simp only [Service.matchingStep, hpc, L3.putStep_commit hslot, hbook, Option.map_some]
  exact .head halive hstep ⟨rfl, rfl, rfl, rfl, rfl⟩
    ⟨_, .refl _ _, ⟨rfl, rfl, rfl, rfl, rfl⟩, rfl, htick⟩

theorem commitEnds_write {s : Service} (hw : s.Wired eps) (halive : s.alive = true)
    {t : TradedOrder Unit} {slot : Nat} (hpc : s.matching = .committing t (.write slot)) :
    CommitEnds nt eps blank blankTrade s.run s := by
  have hstep : s.matchingStep eps = some { s with
      traded := s.traded.write ringSize slot t, matching := .committing t (.commit slot) } := by
    simp only [Service.matchingStep, hpc, L3.Disruptor.putStep]
  exact .head halive hstep ⟨rfl, rfl, rfl, rfl, rfl⟩
    (commitEnds_commit (hw.step (matchingStep_cases hstep)) halive rfl)

theorem commitEnds_waitBarrier {s : Service} (hw : s.Wired eps) (halive : s.alive = true)
    {t : TradedOrder Unit} {slot : Nat} (hpc : s.matching = .committing t (.waitBarrier slot))
    (hroom : s.run.committed.length < ringSize) :
    CommitEnds nt eps blank blankTrade s.run s := by
  have hslot : slot - ringSize < s.pubGet := by
    rw [hw.slot slot (by rw [hpc]; rfl), hw.pubGet, hw.cursor]
    omega
  have hstep : s.matchingStep eps = some { s with matching := .committing t (.write slot) } := by
    simp only [Service.matchingStep, hpc, L3.putStep_room hslot]
  exact .head halive hstep ⟨rfl, rfl, rfl, rfl, rfl⟩
    (commitEnds_write (hw.step (matchingStep_cases hstep)) halive rfl)

/-- While the ring has a free slot, the matching thread finishes the commit it is in. -/
theorem commit_ends {s : Service} (hw : s.Wired eps) (halive : s.alive = true)
    {t : TradedOrder Unit} {put : PutPc} (hpc : s.matching = .committing t put)
    (hroom : s.run.committed.length < ringSize) :
    CommitEnds nt eps blank blankTrade s.run s := by
  cases put with
  | commit slot => exact commitEnds_commit hw halive hpc
  | write slot => exact commitEnds_write hw halive hpc
  | waitBarrier slot => exact commitEnds_waitBarrier hw halive hpc hroom
  | claim =>
    have hstep : s.matchingStep eps = some { s with
        traded := { s.traded with putCursor := s.traded.putCursor + 1 }
        matching := .committing t (.waitBarrier s.traded.putCursor) } := by
      simp only [Service.matchingStep, hpc, L3.Disruptor.putStep]
    exact .head halive hstep ⟨rfl, rfl, rfl, rfl, rfl⟩
      (commitEnds_waitBarrier (hw.step (matchingStep_cases hstep)) halive rfl hroom)

/-- From between two commits, with `n` more ticks of the loops to the book `w`, the
matching thread returns from `match()` with `w`, or finds the ring full before. -/
theorem match_returns : ∀ (n : Nat) {s : Service} {w : BookRun Unit}, s.Wired eps →
    s.alive = true → s.matching = .matching →
    (bookMachine eps).exec s.run (List.replicate n .tick) = some w → w.pc = .idle →
    ∃ v, (serviceMachine nt eps blank blankTrade).Repeats .matchingStep s v ∧ SameRequest s v ∧
      ((v.matching = .waitBatch ∧ v.run = w) ∨
        ∃ t, v.matching = .committing t .claim ∧ ringSize ≤ v.run.committed.length ∧
          v.run.committed.length < w.committed.length) := by
  intro n
  induction n with
  | zero =>
    intro s w hw halive hpc hexec hidle
    cases hexec
    have hplace := hw.place
    unfold Service.LoopPlace at hplace
    rw [hpc] at hplace
    exact absurd hidle hplace
  | succ n ih =>
    intro s w hw halive hpc hexec hidle
    obtain ⟨run, hrun, hrest⟩ := Option.bind_eq_some_iff.mp hexec
    obtain ⟨⟨l, t⟩, hl, -⟩ := Option.map_eq_some_iff.mp hrun
    cases t with
    | none =>
      have hstep : s.matchingStep eps = some { s with
          run, matching := if run.pc = .idle then .waitBatch else .matching } := by
        have hbook : bookStep eps s.run .tick = some run := hrun
        simp only [Service.matchingStep, hpc, hl, hbook, Option.map_some]
      have hfirst := @matchingStep_service nt eps blank blankTrade _ _ halive hstep
      by_cases hback : run.pc = .idle
      · rw [if_pos hback] at hfirst
        have hsame : run = w := ticks_unique (m := 0) rfl hback hrest hidle
        exact ⟨_, .head hfirst (.refl _ _), ⟨rfl, rfl, rfl, rfl, rfl⟩, .inl ⟨rfl, hsame⟩⟩
      · rw [if_neg hback] at hfirst hstep
        obtain ⟨v, hrep, hsame, hend⟩ := ih (hw.step (matchingStep_cases hstep)) halive rfl hrest hidle
        have hset : SameRequest s { s with run, matching := .matching } := ⟨rfl, rfl, rfl, rfl, rfl⟩
        exact ⟨v, .head hfirst hrep, hset.trans hsame, hend⟩
    | some t =>
      have hstep : s.matchingStep eps = some { s with matching := .committing t .claim } := by
        simp only [Service.matchingStep, hpc, hl]
      have hfirst := @matchingStep_service nt eps blank blankTrade _ _ halive hstep
      have hw' := hw.step (matchingStep_cases hstep)
      by_cases hroom : s.run.committed.length < ringSize
      · obtain ⟨u, hrep, hsame, hpc', htick⟩ := @commit_ends nt eps blank blankTrade _ hw'
          halive _ _ rfl hroom
        obtain rfl : run = u.run := Option.some.inj (hrun.symm.trans htick)
        obtain ⟨v, hrep', hsame', hend⟩ := ih (hw'.reaches hrep.reaches) (hsame.alive.trans halive) hpc'
          hrest hidle
        have hset : SameRequest s { s with matching := .committing t .claim } :=
          ⟨rfl, rfl, rfl, rfl, rfl⟩
        exact ⟨v, .head hfirst (hrep.trans hrep'), hset.trans (hsame.trans hsame'), hend⟩
      · have hlen : s.run.committed.length < w.committed.length := by
          have hmore := (reaches_appends (Machine.Repeats.reaches ⟨n, hrest⟩)).2.length_le
          rw [tick_run hl] at hrun
          cases hrun
          simp at hmore
          omega
        exact ⟨_, .head hfirst (.refl _ _), ⟨rfl, rfl, rfl, rfl, rfl⟩,
          .inr ⟨t, rfl, Nat.le_of_not_lt hroom, hlen⟩⟩

/-- The matching thread is in `match()`. -/
def Service.InMatch (s : Service) : Prop :=
  s.matching = .matching ∨ ∃ t put, s.matching = .committing t put

theorem match_ends_between {s : Service} (hr : (bookMachine eps).Reachable s.run)
    (hw : s.Wired eps) (halive : s.alive = true) (hpc : s.matching = .matching) :
    ∃ v, (serviceMachine nt eps blank blankTrade).Repeats .matchingStep s v ∧
      (v.matching = .waitBatch ∨
        ∃ t, v.matching = .committing t .claim ∧ ringSize ≤ v.run.committed.length) := by
  have hplace := hw.place
  unfold Service.LoopPlace at hplace
  rw [hpc] at hplace
  obtain ⟨n, w, hexec, hidle⟩ := ticks_return hr hplace
  obtain ⟨v, hrep, -, ⟨hback, -⟩ | ⟨t, hclaim, hfull, -⟩⟩ :=
    @match_returns nt eps blank blankTrade n s w hw halive hpc hexec hidle
  · exact ⟨v, hrep, .inl hback⟩
  · exact ⟨v, hrep, .inr ⟨t, hclaim, hfull⟩⟩

theorem match_ends {s : Service} (hr : (bookMachine eps).Reachable s.run) (hw : s.Wired eps)
    (halive : s.alive = true) (hin : s.InMatch)
    (hroom : ∀ t slot, s.matching = .committing t (.waitBarrier slot) →
      s.run.committed.length < ringSize) :
    ∃ v, (serviceMachine nt eps blank blankTrade).Repeats .matchingStep s v ∧
      (v.matching = .waitBatch ∨
        ∃ t, v.matching = .committing t .claim ∧ ringSize ≤ v.run.committed.length) := by
  rcases hin with hpc | ⟨t, put, hpc⟩
  · exact match_ends_between hr hw halive hpc
  · by_cases hlt : s.run.committed.length < ringSize
    · obtain ⟨u, hrep, hsame, hu, htick⟩ :=
        @commit_ends nt eps blank blankTrade s hw halive t put hpc hlt
      obtain ⟨v, hrep', hend⟩ := @match_ends_between nt eps blank blankTrade u
        (hr.reaches (.single htick)) (hw.reaches hrep.reaches) (hsame.alive.trans halive) hu
      exact ⟨v, hrep.trans hrep', hend⟩
    · cases put with
      | claim => exact ⟨s, .refl _ _, .inr ⟨t, hpc, Nat.le_of_not_lt hlt⟩⟩
      | waitBarrier slot => exact absurd (hroom t slot hpc) hlt
      | write slot | commit slot => exact absurd (hw.granted (by rw [hpc]; rfl)) hlt

end TradingMarket
