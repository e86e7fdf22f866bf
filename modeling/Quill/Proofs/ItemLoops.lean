-- Loops over the items of a value. Such a loop takes its turns for the places
-- 0, 1, 2 and so on of an array or a string, and looks before each of them
-- whether there is still an item. Each turn begins with the item that is at
-- its place then, whatever the turns before it have overwritten, and there
-- are as many turns as items at first, for no step of a run makes an array
-- longer or shorter.
import Mathlib
import Quill.Proofs.Indexing
import Quill.Proofs.RecordedRuns
import Quill.Proofs.ScopeFrame

namespace Quill

/-! ## Items -/

namespace Value

variable {h h' : Heap} {v : Value} {n : Nat}

/-- A value that has items has as many as long as arrays last. -/
theorem length?_lasts (hlasts : h.Lasts h') (hn : v.length? h = some n) (hpos : 0 < n) :
    v.length? h' = some n := by
  cases v with
  | array id =>
    cases hn
    exact congrArg some (hlasts.length_eq id (Heap.lt_size_of_get hpos))
  | string s => exact hn
  | _ => cases hn

end Value

namespace Run

variable {limit fuel n : Nat} {s t : State} {v w : Value}

theorem hasItem_eq (hn : v.length? s.heap = some n) (k : Nat) :
    hasItem v k s = .ok (decide (k < n)) s := by
  simp only [hasItem, bind, EStateM.bind, withHeap, hn, Option.getD_some]
  rfl

theorem iterable_of_length (hn : v.length? s.heap = some n) (span : Span) (t : State) :
    iterable v span t = .ok () t := by
  cases v with
  | array id => rfl
  | string x => rfl
  | _ => cases hn

/-! ## Turns -/

/-- How a statement, or a turn of a loop, ends. -/
abbrev Exit := EStateM.Result Halt State Signal

/-- What a loop makes of the end of its last turn. -/
def closed : Exit → Exit
  | .ok (.return x) t => .ok (.return x) t
  | .ok _ t => .ok .normal t
  | .error e t => .error e t

/-- The end of something in scopes that are left, but for the first ones. -/
def leaving (n : Nat) : Exit → Exit
  | .ok signal t => .ok signal (t.leave n)
  | .error e t => .error e (t.leave n)

theorem within_eq_leaving (enter : ScopeTree Value → ScopeTree Value) (body : ScopeId → Run Signal)
    (s : State) : within enter body s =
      leaving s.scopes.size (body s.scopes.size { s with scopes := enter s.scopes }) := by
  simp only [within]
  rcases body s.scopes.size { s with scopes := enter s.scopes } with ⟨signal, t⟩ | ⟨e, t⟩
  · rfl
  · rfl

/-- A turn of a loop over items: the state it begins in, its item, and how it
ends. -/
structure Turn where
  start : State
  item : Value
  outcome : Exit

/-- The state after a turn that a loop goes on from. -/
def Turn.next? (turn : Turn) : Option State :=
  match turn.outcome with
  | .ok .normal t | .ok .next t => some t
  | _ => none

theorem Turn.outcome_of_next {turn : Turn} (hnext : turn.next? = some t) :
    turn.outcome = .ok .normal t ∨ turn.outcome = .ok .next t := by
  obtain ⟨start, item, outcome⟩ := turn
  rcases outcome with ⟨signal, u⟩ | ⟨e, u⟩
  · cases signal with
    | normal => cases hnext; exact .inl rfl
    | next => cases hnext; exact .inr rfl
    | _ => cases hnext
  · cases hnext

/-- The state in which the body of a turn runs, with the item bound to the
variable of the loop. -/
def Turn.bound (turn : Turn) (outer : ScopeId) (name : String) : State :=
  { turn.start with scopes := turn.start.scopes.insert outer name (some turn.item) }

/-- The turn is that for the place `k` of `v`, which has `n` of them. The item
is what is there when the turn begins, and the index `k` finds it. The body
sees the item as the value of the variable, and the turn ends as it does. -/
structure Turn.At (limit fuel : Nat) (outer : ScopeId) (name : String) (body : Block) (v : Value)
    (n k : Nat) (turn : Turn) : Prop where
  length : v.length? turn.start.heap = some n
  item : v.item? turn.start.heap k = some turn.item
  subscript : v.subscript turn.start.heap (.int (Int64.ofNat k)) = .ok turn.item
  seen : ((turn.bound outer name).scopes.addBlock outer).find?
    (turn.bound outer name).scopes.size name = some ⟨name, some turn.item⟩
  outcome : turn.outcome = within (·.addBlock outer)
    (fun inner => inOrder (exec limit fuel inner) body.statements) (turn.bound outer name)

/-- Where a loop stands after some turns from the state `s`, and tests whether
to take another one. It stands nowhere if it is left in the last turn. -/
def standing (s : State) (ts : List Turn) : Option State := ts.getLast?.elim (some s) Turn.next?

theorem standing_cons {turn : Turn} (hnext : turn.next? = some t) (ts : List Turn) :
    standing s (turn :: ts) = standing t ts := by
  cases ts with
  | nil => exact hnext
  | cons after ts => simp [standing, List.getLast?_cons]

/-- The turns that a loop takes from the state `s`, with fuel for so many
tests, and the first of them at the place `first`. A turn begins where the one
before it ended, and where the test holds. After the last one the loop is left
in it, or else the test fails, or the fuel is used up. -/
structure Takes (test : Nat → Run Bool) (IsTurn : Nat → Turn → Prop) (first fuel : Nat)
    (s : State) (ts : List Turn) (outcome : Exit) : Prop where
  length_le : ts.length ≤ fuel
  tested : ∀ k turn, ts[k]? = some turn → test (first + k) turn.start = .ok true turn.start
  each : ∀ k turn, ts[k]? = some turn → IsTurn (first + k) turn
  starts : ∀ turn ∈ ts.head?, turn.start = s
  chain : ts.IsChain fun turn after => turn.next? = some after.start
  left : standing s ts = none → ∃ last ∈ ts.getLast?, outcome = closed last.outcome
  ended : ∀ t, standing s ts = some t → ts.length < fuel →
    test (first + ts.length) t = .ok false t ∧ outcome = .ok .normal t
  exhausted : ∀ t, standing s ts = some t → ts.length = fuel → outcome = .error .outOfFuel t

namespace Takes

variable {test : Nat → Run Bool} {IsTurn : Nat → Turn → Prop} {first : Nat} {turn : Turn}
  {ts : List Turn} {outcome : Exit}

theorem outOfFuel (s : State) : Takes test IsTurn first 0 s [] (.error .outOfFuel s) where
  length_le := le_rfl
  tested _ _ := nofun
  each _ _ := nofun
  starts _ := nofun
  chain := .nil
  left := nofun
  ended _ _ := nofun
  exhausted t ht _ := by cases ht; rfl

/-- The test fails before the first turn. -/
theorem nil (hend : test first s = .ok false s) :
    Takes test IsTurn first (fuel + 1) s [] (.ok .normal s) where
  length_le := Nat.zero_le _
  tested _ _ := nofun
  each _ _ := nofun
  starts _ := nofun
  chain := .nil
  left := nofun
  ended t ht _ := by cases ht; exact ⟨hend, rfl⟩
  exhausted _ _ := nofun

/-- The loop is left in its first turn. -/
theorem single (htest : test first turn.start = .ok true turn.start) (hturn : IsTurn first turn)
    (hnext : turn.next? = none) :
    Takes test IsTurn first (fuel + 1) turn.start [turn] (closed turn.outcome) where
  length_le := Nat.succ_le_succ (Nat.zero_le fuel)
  tested k other hk := by
    cases k with
    | zero => cases hk; exact htest
    | succ k => cases hk
  each k other hk := by
    cases k with
    | zero => cases hk; exact hturn
    | succ k => cases hk
  starts other hother := by cases hother; rfl
  chain := .singleton turn
  left _ := ⟨turn, rfl, rfl⟩
  ended t ht := by cases hnext.symm.trans ht
  exhausted t ht := by cases hnext.symm.trans ht

/-- The loop goes on after its first turn. -/
theorem cons (htest : test first turn.start = .ok true turn.start) (hturn : IsTurn first turn)
    (hnext : turn.next? = some t) (hts : Takes test IsTurn (first + 1) fuel t ts outcome) :
    Takes test IsTurn first (fuel + 1) turn.start (turn :: ts) outcome := by
  have hshift : ∀ k, first + (k + 1) = first + 1 + k := by omega
  refine ⟨Nat.succ_le_succ hts.length_le, ?_, ?_, ?_, ?_, ?_, ?_, ?_⟩
  · rintro (_ | k) other hk
    · cases hk
      exact htest
    · rw [hshift]
      exact hts.tested k other hk
  · rintro (_ | k) other hk
    · cases hk
      exact hturn
    · rw [hshift]
      exact hts.each k other hk
  · rintro other ⟨⟩
    rfl
  · refine hts.chain.cons fun after hafter => ?_
    rw [hnext, hts.starts after hafter]
  · rw [standing_cons hnext]
    intro hstands
    obtain ⟨last, hlast, hleft⟩ := hts.left hstands
    exact ⟨last, List.mem_getLast?_cons hlast, hleft⟩
  · rw [standing_cons hnext, List.length_cons, hshift]
    exact fun u hu hlt => hts.ended u hu (Nat.lt_of_succ_lt_succ hlt)
  · rw [standing_cons hnext]
    exact fun u hu hlength => hts.exhausted u hu (Nat.succ.inj hlength)

end Takes

/-! ## Taking turns -/

/-- Where the test holds one turn is taken, and then others unless the loop is
left in it. -/
theorem whileTrue_succ {test : Nat → Run Bool} {body : Nat → Run Signal} {first : Nat}
    {turn : Turn} (htest : test first s = .ok true s) (hturn : turn.outcome = body first s)
    (fuel : Nat) : whileTrue test body first (fuel + 1) s =
      turn.next?.elim (closed turn.outcome) (whileTrue test body (first + 1) fuel) := by
  obtain ⟨start, item, outcome⟩ := turn
  simp only [whileTrue, bind, EStateM.bind, htest, ↓reduceIte, ← hturn]
  rcases outcome with ⟨signal, t⟩ | ⟨e, t⟩
  · cases signal <;> rfl
  · rfl

/-- A loop takes turns if in every state that it can be in its test has an
answer, and there is a turn for each place where it holds. The induction is on
the fuel, and `I` is what the turns keep. -/
theorem exists_takes {test : Nat → Run Bool} {IsTurn : Nat → Turn → Prop} {I : State → Prop}
    {body : Nat → Run Signal} (htest : ∀ k s, I s → ∃ b, test k s = .ok b s)
    (hturn : ∀ k s, I s → test k s = .ok true s → ∃ turn : Turn, turn.start = s ∧
      IsTurn k turn ∧ turn.outcome = body k s ∧ ∀ t, turn.next? = some t → I t)
    (first fuel : Nat) (hs : I s) :
    ∃ ts, Takes test IsTurn first fuel s ts (whileTrue test body first fuel s) ∧
      ∀ t, standing s ts = some t → I t := by
  induction fuel generalizing first s with
  | zero => exact ⟨[], .outOfFuel s, fun t ht => Option.some.inj ht ▸ hs⟩
  | succ fuel ih =>
    obtain ⟨b, hb⟩ := htest first s hs
    cases b with
    | false =>
      have hend : whileTrue test body first (fuel + 1) s = .ok .normal s := by
        simp only [whileTrue, bind, EStateM.bind, hb]
        rfl
      rw [hend]
      exact ⟨[], .nil hb, fun t ht => Option.some.inj ht ▸ hs⟩
    | true =>
      obtain ⟨turn, rfl, hat, houtcome, hafter⟩ := hturn first s hs hb
      rw [whileTrue_succ hb houtcome]
      rcases hnext : turn.next? with _ | t
      · exact ⟨[turn], .single hb hat hnext, fun t ht => by cases hnext.symm.trans ht⟩
      · obtain ⟨ts, hts, hstands⟩ := ih (first + 1) (hafter t hnext)
        refine ⟨turn :: ts, .cons hb hat hnext hts, ?_⟩
        rwa [standing_cons hnext]

/-- What holds of the states in which the turns of a loop begin. -/
structure Ready (outer : ScopeId) (v : Value) (n : Nat) (s : State) : Prop where
  has : s.Has outer
  data : s.heap.Data
  length : v.length? s.heap = some n

variable {outer : ScopeId} {name : String} {k : Nat}

theorem State.Has.bound {turn : Turn} (hs : turn.start.Has outer) :
    (turn.bound outer name).Has outer := hs.stmt (insert_frame outer name turn.item turn.start)

/-- The block of a turn sees the item. -/
theorem Turn.find?_bound {turn : Turn} (hs : turn.start.Has outer) :
    ((turn.bound outer name).scopes.addBlock outer).find?
      (turn.bound outer name).scopes.size name = some ⟨name, some turn.item⟩ := by
  have hbound : (turn.bound outer name).Has outer := hs.bound
  rw [ScopeTree.addBlock, ScopeTree.find?_addChild_self hbound.wellFormed hbound.lt]
  exact ScopeTree.find?_insert_self hs.wellFormed hs.lt name (some turn.item)

/-- The loop can go on after a turn that does not leave it: whatever its body
has done, the value has as many items as before. -/
theorem Ready.next {turn : Turn} (hs : Ready outer v n turn.start) (hpos : 0 < n) {body : Block}
    (houtcome : turn.outcome = within (·.addBlock outer)
      (fun inner => inOrder (exec limit fuel inner) body.statements) (turn.bound outer name))
    (hnext : turn.next? = some t) : Ready outer v n t := by
  have hbound : (turn.bound outer name).Has outer := hs.has.bound
  have hground : (turn.bound outer name).Grounded := ⟨hs.data, Nat.zero_lt_of_lt hbound.lt⟩
  have hframe : Moves (BlockFrame outer) (Mode.plain.within (·.addBlock outer) fun inner =>
      inOrder (exec limit fuel inner) body.statements) (turn.bound outer name) :=
    within_exec_frame (eval_exec_frame limit fuel).2 body.statements hbound rfl
  have henter : ∀ tree : ScopeTree Value,
      ∃ l, tree.addBlock outer = tree.addChild outer l (tree.inFunction outer) := fun _ => ⟨_, rfl⟩
  have hrecords : Records limit (fun _ => False) _ _ _ :=
    block_records (exec_records limit fuel) henter body
  have hpast := hrecords.nested hground
  obtain ⟨signal, hran⟩ : ∃ signal, turn.outcome = .ok signal t :=
    (turn.outcome_of_next hnext).elim (⟨_, ·⟩) (⟨_, ·⟩)
  have hafter : after (Mode.plain.within (·.addBlock outer) fun inner =>
      inOrder (exec limit fuel inner) body.statements) (turn.bound outer name) = t := by
    have hran : Mode.plain.within (·.addBlock outer) (fun inner =>
        inOrder (exec limit fuel inner) body.statements) (turn.bound outer name) = .ok signal t :=
      houtcome.symm.trans hran
    rw [after, hran]
  rw [Moves, hafter] at hframe
  rw [hafter] at hpast
  exact ⟨hbound.block hframe, (hpast.grounded hground).data,
    Value.length?_lasts hpast.history.lasts hs.length hpos⟩

/-- What is run for the place `k` of `v`. -/
def itemTurn (limit fuel : Nat) (outer : ScopeId) (name : String) (body : Block) (v : Value)
    (span : Span) (k : Nat) : Run Signal := do
  bindName outer name (← itemOf v k span)
  within (·.addBlock outer) fun inner => inOrder (exec limit fuel inner) body.statements

theorem exec_each (limit fuel : Nat) (scope : ScopeId) (item : Name) (items : Expr) (body : Block)
    (span : Span) : exec limit (fuel + 1) scope ⟨.each item items body, span⟩ = (do
      let v ← eval limit fuel scope items
      iterable v items.span
      within (·.addLoop scope) fun outer =>
        whileTrue (hasItem v) (itemTurn limit fuel outer item.text body v items.span) 0 fuel) :=
  rfl

/-- From every state that the loop can be in, it takes the turn for each
place: the index is in range, since the value still has all its items. -/
theorem Ready.exists_turn (hs : Ready outer v n s) (hmachine : n ≤ 2 ^ 63) (hk : k < n)
    (body : Block) (span : Span) :
    ∃ turn : Turn, turn.start = s ∧ turn.At limit fuel outer name body v n k ∧
      turn.outcome = itemTurn limit fuel outer name body v span k s ∧
      ∀ t, turn.next? = some t → Ready outer v n t := by
  obtain ⟨w, hw⟩ := Value.exists_item hs.length hk
  have hsubscript := Value.subscript_ofNat (hk.trans_le hmachine) hw
  let turn : Turn := ⟨s, w, itemTurn limit fuel outer name body v span k s⟩
  have houtcome : turn.outcome = within (·.addBlock outer)
      (fun inner => inOrder (exec limit fuel inner) body.statements) (turn.bound outer name) := by
    simp only [turn, itemTurn, itemOf, bind, EStateM.bind, withHeap, hsubscript, orFail]
    rfl
  exact ⟨turn, rfl, ⟨hs.length, hw, hsubscript, Turn.find?_bound hs.has, houtcome⟩, rfl,
    fun t => Ready.next hs (Nat.zero_lt_of_lt hk) houtcome⟩

theorem Ready.exists_takes (hs : Ready outer v n s) (hmachine : n ≤ 2 ^ 63) (body : Block)
    (span : Span) :
    ∃ ts, Takes (hasItem v) (Turn.At limit fuel outer name body v n) 0 fuel s ts
        (whileTrue (hasItem v) (itemTurn limit fuel outer name body v span) 0 fuel s) ∧
      ∀ t, standing s ts = some t → Ready outer v n t := by
  refine Run.exists_takes (fun k u hu => ⟨_, hasItem_eq hu.length k⟩) ?_ 0 fuel hs
  intro k u hu htest
  rw [hasItem_eq hu.length] at htest
  have hk : k < n := of_decide_eq_true (EStateM.Result.ok.inj htest).1
  exact hu.exists_turn hmachine hk body span

/-- A loop that takes turns as long as there are items takes no more of them
than there are, and all of them if it is not left and has fuel for one test
more. -/
theorem Takes.length_eq {ts : List Turn} {outcome : Exit} {body : Block}
    (h : Takes (hasItem v) (Turn.At limit fuel outer name body v n) 0 fuel s ts outcome)
    (hn : ∀ t, standing s ts = some t → v.length? t.heap = some n) :
    ts.length ≤ n ∧ ∀ t, standing s ts = some t → n < fuel →
      ts.length = n ∧ hasItem v n t = .ok false t ∧ outcome = .ok .normal t := by
  have hle : ts.length ≤ n := by
    rcases Nat.eq_zero_or_pos ts.length with hzero | hpos
    · omega
    · have hlast := List.getElem?_eq_getElem (Nat.sub_one_lt_of_lt hpos)
      have htested := h.tested _ _ hlast
      rw [hasItem_eq (h.each _ _ hlast).length] at htested
      have hlt : 0 + (ts.length - 1) < n := of_decide_eq_true (EStateM.Result.ok.inj htested).1
      omega
  refine ⟨hle, fun t ht hfuel => ?_⟩
  obtain ⟨htest, houtcome⟩ := h.ended t ht (hle.trans_lt hfuel)
  rw [Nat.zero_add] at htest
  have hfails := htest
  rw [hasItem_eq (hn t ht)] at hfails
  have hge : ¬ ts.length < n := of_decide_eq_false (EStateM.Result.ok.inj hfails).1
  have hlength : ts.length = n := by omega
  exact ⟨hlength, hlength ▸ htest, houtcome⟩

/-- A loop over an array or a string of `n` items takes the turns for the
places 0, 1, 2 and so on, each with the item that is at its place when the
turn begins. Before each turn there is still an item for it. All `n` of them
are taken, and then there is no item any more, unless the loop is left in a
turn: by `stop`, by `return`, or since the run ends there. It ends as if at its
end, with what is returned, or with the end of the run. An index that counts up
to more than 2 ^ 63 items would not be an integer any more. -/
theorem each_takes_turns (item : Name) {items : Expr} (body : Block) (span : Span)
    {scope : ScopeId} (hs : s.Has scope) (hdata : s.heap.Data)
    (hitems : eval limit fuel scope items s = .ok v t) (hn : v.length? t.heap = some n)
    (hmachine : n ≤ 2 ^ 63) :
    let start : State := { t with scopes := t.scopes.addLoop scope }
    ∃ ts outcome,
      Takes (hasItem v) (Turn.At limit fuel t.scopes.size item.text body v n) 0 fuel start ts
        outcome ∧
      (ts.length ≤ n ∧ ∀ u, standing start ts = some u → n < fuel →
        ts.length = n ∧ hasItem v n u = .ok false u ∧ outcome = .ok .normal u) ∧
      exec limit (fuel + 1) scope ⟨.each item items body, span⟩ s =
        leaving t.scopes.size outcome := by
  intro start
  have hframe := eval_frame limit fuel items hs
  have hpast := (eval_records limit fuel scope items).nested ⟨hdata, Nat.zero_lt_of_lt hs.lt⟩
  rw [Moves, after, hitems] at hframe
  rw [after, hitems] at hpast
  have ht : t.Has scope := hs.expr hframe
  have hground := hpast.grounded ⟨hdata, Nat.zero_lt_of_lt hs.lt⟩
  have hready : Ready t.scopes.size v n start :=
    ⟨⟨ht.wellFormed.addChild ht.lt _ _, by simp [start, ScopeTree.addLoop]⟩, hground.data, hn⟩
  obtain ⟨ts, hts, hstands⟩ := hready.exists_takes hmachine body items.span
  refine ⟨ts, _, hts, hts.length_eq fun u hu => (hstands u hu).length, ?_⟩
  simp only [exec_each, bind, EStateM.bind, hitems, iterable_of_length hn]
  exact within_eq_leaving _ _ t

/-- The second turn begins with what the first one has written to the array,
by another name. -/
theorem each_takes_turns_written :
    let names := ScopeTree.empty.insert 0 "a" (some (Value.array 0))
    let s : State := ⟨⟨#[#[.int 1, .int 2]], 0⟩, names.insert 0 "b" (some (.array 0)), 0, "",
      .replay []⟩
    let items : Expr := ⟨.var "a", default⟩
    let write : Stmt := ⟨.assign ⟨.element ⟨.var "b", default⟩ ⟨.int 1, default⟩, default⟩
      ⟨.int 7, default⟩, default⟩
    let body : Block := ⟨[write], default⟩
    let start : State := { s with scopes := s.scopes.addLoop 0 }
    s.Has 0 ∧ s.heap.Data ∧ eval 1 3 0 items s = .ok (.array 0) s ∧
    ∃ ts outcome u,
      Takes (hasItem (.array 0)) (Turn.At 1 3 1 "x" body (.array 0) 2) 0 3 start ts outcome ∧
      ts.map (·.item) = [.int 1, .int 7] ∧ standing start ts = some u ∧
      hasItem (.array 0) 2 u = .ok false u ∧
      exec 1 4 0 ⟨.each ⟨"x", default⟩ items body, default⟩ s = leaving 1 outcome := by
  intro names s items write body start
  have hs : s.Has 0 := ⟨(ScopeTree.WellFormed.empty.insert 0 "a" _).insert 0 "b" _, by decide⟩
  have hdata : s.heap.Data := AllData.push .empty (by decide)
  have hitems : eval 1 3 0 items s = .ok (.array 0) s := rfl
  obtain ⟨ts, outcome, htakes, ⟨hle, hcount⟩, hexec⟩ :=
    each_takes_turns ⟨"x", default⟩ body default hs hdata hitems rfl (by decide)
  let t : State := { start with
    heap := ⟨#[#[.int 1, .int 7]], 0⟩
    scopes := start.scopes.insert 1 "x" (some (.int 1)) }
  let u : State := { t with scopes := t.scopes.insert 1 "x" (some (.int 7)) }
  -- neither before the first turn nor before the second the loop has ended
  rcases ts with _ | ⟨a, ts⟩
  · cases (hcount start rfl (by decide)).1
  have ha := htakes.each 0 a rfl
  obtain ⟨first, item, out⟩ := a
  obtain rfl : first = start := htakes.starts _ rfl
  obtain rfl : .int 1 = item := Option.some.inj ha.item
  obtain rfl : out = .ok .normal t := ha.outcome
  rcases ts with _ | ⟨b, ts⟩
  · cases (hcount t rfl (by decide)).1
  have hb := htakes.each 1 b rfl
  obtain ⟨second, item, out⟩ := b
  obtain rfl : t = second := Option.some.inj (List.isChain_cons_cons.mp htakes.chain).1
  obtain rfl : .int 7 = item := Option.some.inj hb.item
  obtain rfl : out = .ok .normal u := hb.outcome
  have hlength : ts.length + 2 ≤ 2 := hle
  obtain rfl : ts = [] := List.eq_nil_of_length_eq_zero (by omega)
  exact ⟨hs, hdata, hitems, _, outcome, u, htakes, rfl, rfl, (hcount u rfl (by decide)).2.1, hexec⟩

end Run

end Quill
