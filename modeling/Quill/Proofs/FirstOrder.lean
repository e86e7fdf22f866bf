-- Functions are no values. A program can declare a function and call it by
-- its name, but no expression, element, parameter, loop variable or
-- returned value is ever one. What is bound globally always has a value.
import Mathlib
import Quill.Proofs.ArrayStorage

namespace Quill.Run

/-! ## The values of events -/

/-- The values that an event is about. -/
def Event.values : Event → List Value
  | .value _ _ v | .assigned _ _ v | .parameter _ _ v | .item _ _ v | .returned v => [v]
  | .stored a i v => [a, i, v]
  | .builtin _ args => args
  | .made | .declared _ _ | .entered | .left _ | .called | .ended | .failed => []

variable {limit : Nat} {s t : State} {event : Event} {i : ScopeId} {b : Binding Value}

theorem Law.values_isData (h : Law limit s event t) : ∀ v ∈ event.values, v.IsData := by
  cases h with
  | value hv | assigned hv _ | parameter hv _ | item hv _ | returned hv =>
    simpa [Event.values] using hv
  | builtin output outside hargs => exact hargs
  | stored hv hslot =>
    obtain ⟨n, rfl, rfl, -⟩ := Value.slot_eq_ok_iff.mp hslot
    simpa [Event.values] using hv
  | _ => exact nofun

/-! ## Bindings -/

/-- The binding stands in the scope `i`. -/
def State.Binds (s : State) (i : ScopeId) (b : Binding Value) : Prop :=
  ∃ scope, s.scopes.get? i = some scope ∧ b ∈ scope.bindings

theorem mem_of_mem_put {α : Type} {b c : Binding α} {bs : List (Binding α)}
    (h : b ∈ Scope.put c bs) : b = c ∨ b ∈ bs := by
  induction bs with
  | nil => exact .inl (List.mem_singleton.mp h)
  | cons d bs ih =>
    unfold Scope.put at h
    split at h
    · exact (List.mem_cons.mp h).imp_right (List.mem_cons_of_mem d)
    · rcases List.mem_cons.mp h with rfl | h
      · exact .inr List.mem_cons_self
      · exact (ih h).imp_right (List.mem_cons_of_mem d)

/-- A binding after an insertion is the new one or was there before. -/
theorem State.Binds.of_insert {j : ScopeId} {n : String} {v : Option Value} (hb : t.Binds i b)
    (hscopes : t.scopes = s.scopes.insert j n v) :
    (i = j ∧ b = ⟨n, v⟩) ∨ s.Binds i b := by
  obtain ⟨scope, hget, hmem⟩ := hb
  rw [hscopes] at hget
  by_cases hij : i = j
  · subst hij
    rw [ScopeTree.get?_insert_self] at hget
    obtain ⟨old, hold, rfl⟩ := Option.map_eq_some_iff.mp hget
    exact (mem_of_mem_put hmem).imp (⟨rfl, ·⟩) (⟨old, hold, ·⟩)
  · rw [ScopeTree.get?_insert_of_ne n v hij] at hget
    exact .inr ⟨scope, hget, hmem⟩

/-- Nothing is bound in a new scope. -/
theorem State.Binds.of_addChild {p : ScopeId} {l f : Bool} (hb : t.Binds i b)
    (hscopes : t.scopes = s.scopes.addChild p l f) : s.Binds i b := by
  obtain ⟨scope, hget, hmem⟩ := hb
  rw [hscopes] at hget
  rcases Nat.lt_trichotomy i s.scopes.size with hi | rfl | hi
  · rw [ScopeTree.get?_addChild_of_lt p l f hi] at hget
    exact ⟨scope, hget, hmem⟩
  · rw [ScopeTree.get?_addChild_self] at hget
    cases hget
    cases hmem
  · have hnone : (s.scopes.addChild p l f).get? i = none := by
      rw [ScopeTree.get?_eq_none_iff, ScopeTree.size_addChild]
      omega
    rw [hnone] at hget
    cases hget

theorem State.Binds.of_leave {n : Nat} (hb : (s.leave n).Binds i b) : s.Binds i b := by
  obtain ⟨scope, hget, hmem⟩ := hb
  rw [State.leave, ScopeTree.get?_keep] at hget
  split at hget
  · exact ⟨scope, hget, hmem⟩
  · cases hget

/-- What an event binds is data, and globally not nothing, or it is the
function of the declaration that the event is. -/
theorem Law.binds (h : Law limit s event t) (hb : t.Binds i b) :
    s.Binds i b ∨
    (∃ v, b.value = some v ∧ v.IsData ∧ (i = ScopeTree.globalId → v.kind ≠ .void)) ∨
    ∃ d id, event = .declared i d ∧ b = ⟨d.name.text, some (.function (.ofDecl d) id)⟩ := by
  cases h with
  | assigned hv hvoid =>
    rcases hb.of_insert rfl with ⟨-, rfl⟩ | hb
    · exact .inr (.inl ⟨_, rfl, hv, fun _ => hvoid⟩)
    · exact .inl hb
  | parameter hv hscope | item hv hscope =>
    rcases hb.of_insert rfl with ⟨rfl, rfl⟩ | hb
    · exact .inr (.inl ⟨_, rfl, hv, fun hglobal => absurd hglobal hscope.ne'⟩)
    · exact .inl hb
  | @declared scope d =>
    rcases hb.of_insert rfl with ⟨rfl, rfl⟩ | hb
    · exact .inr (.inr ⟨d, _, rfl, rfl⟩)
    · exact .inl hb
  | entered p l f => exact .inl (hb.of_addChild rfl)
  | left _ => exact .inl hb.of_leave
  | _ => exact .inl hb

/-! ## First-order states -/

/-- No array holds a function, functions are bound only under their own
names, and what is bound globally has a value. -/
structure State.FirstOrder (s : State) : Prop extends s.Grounded where
  functions : ∀ i n f id, s.Binds i ⟨n, some (.function f id)⟩ →
    (∃ c : Builtin, n = c.name ∧ f = c.toFunction) ∨
      ∃ d : FunctionDecl, n = d.name.text ∧ f = .ofDecl d
  globals : ∀ b, s.Binds ScopeTree.globalId b → ∃ v, b.value = some v ∧ v.kind ≠ .void

theorem Law.firstOrder (h : Law limit s event t) (hs : s.FirstOrder) : t.FirstOrder where
  toGrounded := h.grounded hs.toGrounded
  functions := by
    intro i n f id hb
    rcases h.binds hb with hb | ⟨v, hv, hdata, -⟩ | ⟨d, k, -, hd⟩
    · exact hs.functions i n f id hb
    · cases hv
      exact absurd rfl hdata
    · cases hd
      exact .inr ⟨d, rfl, rfl⟩
  globals := by
    intro b hb
    rcases h.binds hb with hb | ⟨v, hv, -, hvoid⟩ | ⟨d, k, -, rfl⟩
    · exact hs.globals b hb
    · exact ⟨v, hv, hvoid rfl⟩
    · exact ⟨_, rfl, nofun⟩

/-- The built-in functions are bound under their names, and nothing else
is bound by that. -/
theorem bindBuiltins_binds (scope : ScopeId) (bs : List Builtin) (s : State) :
    Moves (fun s t => ∀ i b, t.Binds i b → s.Binds i b ∨
      ∃ (c : Builtin) (id : Nat), b = ⟨c.name, some (.function c.toFunction id)⟩)
      (bindBuiltins scope bs) s := by
  induction bs generalizing s with
  | nil => exact fun i b hb => .inl hb
  | cons c bs ih =>
    intro i b hb
    rcases ih _ i b hb with hb | hb
    · exact (hb.of_insert rfl).symm.imp_right fun h => ⟨c, _, h.2⟩
    · exact .inr hb

theorem initial_binds {outside : Outside} (hb : (State.initial outside).Binds i b) :
    ∃ (c : Builtin) (id : Nat), b = ⟨c.name, some (.function c.toFunction id)⟩ := by
  rcases bindBuiltins_binds ScopeTree.globalId Builtin.all ⟨.empty, .empty, 0, "", outside⟩ i b hb
    with ⟨scope, hscope, hmem⟩ | hb
  · have hempty : scope.bindings = [] := by
      have hget := List.mem_of_getElem? (l := [(⟨[], none, none, false, false⟩ : Scope Value)])
        (i := i) (a := scope) (by simpa [ScopeTree.get?, ScopeTree.empty] using hscope)
      rw [List.mem_singleton.mp hget]
    rw [hempty] at hmem
    cases hmem
  · exact hb

theorem initial_firstOrder (outside : Outside) : (State.initial outside).FirstOrder where
  toGrounded := initial_grounded outside
  functions := by
    intro i n f id hb
    obtain ⟨c, k, hc⟩ := initial_binds hb
    cases hc
    exact .inl ⟨c, rfl, rfl⟩
  globals := by
    intro b hb
    obtain ⟨c, k, rfl⟩ := initial_binds hb
    exact ⟨_, rfl, nofun⟩

/-! ## Every run -/

/-- In every run from every state that runs can start from, checked or
not, functions are never first-class. At every moment no expression has a
function as its value, no array holds one, the values of the event are
none, and functions are bound under the names of built-in functions and of
declarations only. A binding of a function that was not there a moment
before comes from the declaration of it just then. What is bound globally
has a value that is not void. The moments are those of the run itself,
which the recorded run is without its tape. -/
theorem functions_are_never_values {outside : Outside} {s : State} (hs : Reached outside s)
    (p : Program) (limit fuel : Nat) :
    endIn Tape.state (p.recorded limit fuel ⟨s, []⟩) = p.run limit fuel s ∧
    s.FirstOrder ∧ (after (p.run limit fuel) s).FirstOrder ∧
    (∀ m ∈ p.history limit fuel s,
      m.state.FirstOrder ∧ (∀ v ∈ m.event.values, v.IsData) ∧
      ∀ depth scope e v t, eval limit depth scope e m.state = .ok v t → v.IsData) ∧
    ∀ before m later, p.history limit fuel s = before ++ m :: later →
      ∀ i n f id, m.state.Binds i ⟨n, some (.function f id)⟩ →
        (stateAfter s before).Binds i ⟨n, some (.function f id)⟩ ∨
        ∃ d, m.event = .declared i d ∧ n = d.name.text ∧ f = .ofDecl d := by
  have hfirst : s.FirstOrder := (hs.invariant (initial_firstOrder outside) Law.firstOrder).2
  have hleads := p.history_leads limit fuel hfirst.toGrounded
  refine ⟨p.endIn_recorded limit fuel hfirst.toGrounded, hfirst,
    hleads.invariant Law.firstOrder hfirst, ?_, ?_⟩
  · intro m hm
    have hstate : m.state.FirstOrder := hleads.invariant_mem Law.firstOrder hfirst hm
    refine ⟨hstate, ?_, ?_⟩
    · obtain ⟨before, later, hsplit⟩ := List.append_of_mem hm
      rw [hsplit] at hleads
      exact hleads.law.values_isData
    · intro depth scope e v t hv
      have hends := (eval_records limit depth scope e).ends hstate.toGrounded
      rw [Ends, hv] at hends
      exact hends.1
  · intro before m later hsplit i n f id hb
    rw [hsplit] at hleads
    rcases hleads.law.binds hb with hold | ⟨v, hv, hdata, -⟩ | ⟨d, k, hd, hb⟩
    · exact .inl hold
    · cases hv
      exact absurd rfl hdata
    · cases hb
      exact .inr ⟨d, hd, rfl, rfl⟩

/-- A program that no check accepts, since it uses a function as a value.
It runs up to there, and makes an array of nothing on the way. -/
theorem functions_are_never_values_unchecked :
    let s := State.initial (.replay [])
    ∃ p, parseSource "function f(x) \x7b return [x] \x7d\na <- f(output(1))\nb <- f" = .ok p ∧
      Reached (.replay []) s ∧
      (p.history 10 20 s).length = 15 ∧
      ∀ m ∈ p.history 10 20 s, m.state.FirstOrder ∧ ∀ v ∈ m.event.values, v.IsData := by
  intro s
  obtain ⟨p, hp, hlength⟩ := exists_of_toOption_any
    (r := parseSource "function f(x) \x7b return [x] \x7d\na <- f(output(1))\nb <- f")
    (P := fun p => (p.history 10 20 s).length = 15) (by decide +kernel)
  have hs : Reached (.replay []) s := .initial
  obtain ⟨-, -, -, hmoments, -⟩ := functions_are_never_values hs p 10 20
  exact ⟨p, hp, hs, of_decide_eq_true hlength,
    fun m hm => ⟨(hmoments m hm).1, (hmoments m hm).2.1⟩⟩

end Quill.Run
