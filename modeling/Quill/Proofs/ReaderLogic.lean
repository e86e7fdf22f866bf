-- Reasoning about readers. A reader never takes back what it has reported,
-- so a reading after which nothing is reported went well at every step.
-- `Reads` is a triple of assertions on the states before and after a
-- reader that count only in such readings, and `At` is the assertion that
-- `used` has been read since some earlier state.
import Mathlib
import Quill.Syntax.StmtReader

namespace Quill.Reader

/-! ## Plain readings -/

@[simp] theorem plain_look {α : Type} (m : Reader α) : plain.look m = m := rfl

@[simp] theorem plain_recovering {α : Type} (item : Reader α) :
    plain.recovering item = recovering item := rfl

@[simp] theorem plain_enclosed {α : Type} (m : Reader α) : plain.enclosed m = m := rfl

/-! ## States -/

/-- Nothing has been reported. -/
def State.Clean (s : State) : Prop := s.reporter.kept = []

/-- The state when `used` has been read and `rest` is ahead. -/
def State.passed (s : State) (used rest : List Lexeme) : State :=
  { s with ahead := rest, last := (used.getLast?.map (·.span)).or s.last }

@[simp] theorem State.passed_ahead (s : State) (used rest : List Lexeme) :
    (s.passed used rest).ahead = rest := rfl

@[simp] theorem State.passed_reporter (s : State) (used rest : List Lexeme) :
    (s.passed used rest).reporter = s.reporter := rfl

@[simp] theorem State.passed_nil (s : State) : s.passed [] s.ahead = s := by
  simp [State.passed]

@[simp] theorem State.passed_passed (s : State) (used others rest rest' : List Lexeme) :
    (s.passed used rest').passed others rest = s.passed (used ++ others) rest := by
  rcases List.eq_nil_or_concat others with rfl | ⟨xs, x, rfl⟩
  · simp [State.passed]
  · simp [State.passed, ← List.append_assoc]

theorem State.advance_eq {s : State} {x : Lexeme} {xs : List Lexeme} (h : s.ahead = x :: xs) :
    s.advance = s.passed [x] xs := by
  unfold State.advance
  rw [h]
  rfl

/-- What holds between the states before and after any reading: no error
is pending, and what was reported is kept. -/
structure Leads (s t : State) : Prop where
  calm : t.reporter.pending = false
  kept : s.reporter.kept <+: t.reporter.kept

theorem Leads.refl {s : State} (h : s.reporter.pending = false) : Leads s s :=
  ⟨h, List.prefix_refl _⟩

theorem Leads.trans {s t u : State} (h : Leads s t) (h' : Leads t u) : Leads s u :=
  ⟨h'.calm, h.kept.trans h'.kept⟩

theorem Leads.clean {s t : State} (h : Leads s t) (ht : t.Clean) : s.Clean := by
  have := h.kept
  rw [ht] at this
  exact List.prefix_nil.mp this

/-! ## Triples -/

section Reads

variable {α β : Type} {m : Reader α} {f : α → Reader β} {pre pre' : State → Prop}
  {mid post post' : α → State → Prop} {next : β → State → Prop}

/-- If `pre` holds before and nothing is reported up to the end, then the
reader has a result only where `post` holds. Whatever happens, nothing
reported is lost. -/
def Reads (pre : State → Prop) (m : Reader α) (post : α → State → Prop) : Prop :=
  ∀ s : State, s.reporter.pending = false → (s.Clean → pre s) →
    match m s with
    | .ok x t => Leads s t ∧ (t.Clean → post x t)
    | .error _ t => Leads s t

theorem Reads.ok {s t : State} {x : α} (h : Reads pre m post) (hs : s.reporter.pending = false)
    (hpre : s.Clean → pre s) (hm : m s = .ok x t) : Leads s t ∧ (t.Clean → post x t) := by
  have := h s hs hpre
  rw [hm] at this
  exact this

theorem Reads.error {s t : State} {d : Diagnostic} (h : Reads pre m post)
    (hs : s.reporter.pending = false) (hpre : s.Clean → pre s) (hm : m s = .error d t) :
    Leads s t := by
  have := h s hs hpre
  rw [hm] at this
  exact this

theorem Reads.mono (h : Reads pre m post) (hpre : ∀ s, pre' s → pre s)
    (hpost : ∀ x t, post x t → post' x t) : Reads pre' m post' := by
  intro s hs hs'
  have := h s hs fun hc => hpre s (hs' hc)
  split at this
  · exact ⟨this.1, fun hc => hpost _ _ (this.2 hc)⟩
  · exact this

theorem Reads.weaken (h : Reads pre m post) (hpre : ∀ s, pre' s → pre s) : Reads pre' m post :=
  h.mono hpre fun _ _ hp => hp

theorem Reads.pure {x : α} (h : ∀ s, pre s → post x s) : Reads pre (pure x) post :=
  fun s hs hpre => ⟨.refl hs, fun hc => h s (hpre hc)⟩

theorem Reads.bind (hm : Reads pre m mid) (hf : ∀ x, Reads (mid x) (f x) next) :
    Reads pre (m >>= f) next := by
  intro s hs hpre
  simp only [Bind.bind, EStateM.bind]
  rcases h : m s with ⟨x, t⟩ | ⟨d, t⟩
  · dsimp only
    obtain ⟨hl, hmid⟩ := hm.ok hs hpre h
    have hx := hf x t hl.calm hmid
    revert hx
    rcases f x t with ⟨y, u⟩ | ⟨d, u⟩
    · exact fun hx => ⟨hl.trans hx.1, hx.2⟩
    · exact fun hx => hl.trans hx
  · exact hm.error hs hpre h

/-- An assertion that something exists may be used with any such thing. -/
theorem Reads.ofExists {ι : Type} [Nonempty ι] {pre : ι → State → Prop}
    (h : ∀ i, Reads (pre i) m post) : Reads (fun s => ∃ i, pre i s) m post := by
  intro s hs hpre
  by_cases hc : s.Clean
  · obtain ⟨i, hi⟩ := hpre hc
    exact h i s hs fun _ => hi
  · exact h (Classical.arbitrary ι) s hs fun hc' => absurd hc' hc

theorem Reads.throw {d : Diagnostic} : Reads pre (throw d : Reader α) post :=
  fun _ hs _ => .refl hs

theorem Reads.expected {what : String} : Reads pre (Reader.expected what : Reader α) post :=
  fun _ hs _ => .refl hs

end Reads

/-! ## How far the reading is -/

/-- Since `start` the lexemes `used` have been read, and `K` holds of those
ahead. -/
structure At (start : State) (used : List Lexeme) (K : List Lexeme → Prop) (s : State) : Prop where
  split : start.ahead = used ++ s.ahead
  state : s = start.passed used s.ahead
  holds : K s.ahead

section At

variable {α β : Type} {m : Reader α} {f : α → Reader β} {start : State} {used : List Lexeme}
  {K K' : List Lexeme → Prop} {post : β → State → Prop} {bound : Nat}
  {P : List Lexeme → α → List Lexeme → Prop}

theorem At.imp {s : State} (h : At start used K s) (hK : ∀ r, K r → K' r) : At start used K' s :=
  ⟨h.split, h.state, hK _ h.holds⟩

theorem At.step {s : State} {x : Lexeme} {xs : List Lexeme} (h : At start used K s)
    (hs : s.ahead = x :: xs) :
    At start (used ++ [x]) (fun r => K (x :: r)) (s.passed [x] xs) := by
  refine ⟨by simpa [hs] using h.split, ?_, by simpa [hs] using h.holds⟩
  conv_lhs => rw [h.state]
  simp

/-- The reader reads phrases `P` from at most `bound` lexemes: what it has
used, its result and what it has left are related by `P`. -/
def Parses (bound : Nat) (m : Reader α) (P : List Lexeme → α → List Lexeme → Prop) : Prop :=
  ∀ start, Reads (At start [] fun r => r.length ≤ bound) m
    fun x s => ∃ used, At start used (P used x) s

theorem Parses.mono {P' : List Lexeme → α → List Lexeme → Prop} (h : Parses bound m P)
    (hP : ∀ used x rest, P used x rest → P' used x rest) : Parses bound m P' := fun start =>
  (h start).mono (fun _ hs => hs) fun x _ ⟨used, ht⟩ => ⟨used, ht.imp (hP used x)⟩

/-- A reader of phrases in the middle of a reading. -/
theorem Parses.reads (h : Parses bound m P) (hK : ∀ r, K r → r.length ≤ bound) :
    Reads (At start used K) m
      fun x s => ∃ v, At start (used ++ v) (fun r => K (v ++ r) ∧ P v x r) s := by
  intro s hs hpre
  have := h s s hs fun hc => ⟨rfl, by simp, hK _ (hpre hc).holds⟩
  split at this
  · rename_i x t _
    refine ⟨this.1, fun hc => ?_⟩
    obtain ⟨v, hv⟩ := this.2 hc
    have hat := hpre (this.1.clean hc)
    refine ⟨v, ?_, ?_, ?_, hv.holds⟩
    · rw [hat.split, hv.split, List.append_assoc]
    · conv_lhs => rw [hv.state, hat.state]
      rw [State.passed_passed]
    · rw [← hv.split]
      exact hat.holds
  · exact this

theorem Parses.then (h : Parses bound m P) (hK : ∀ r, K r → r.length ≤ bound)
    (hf : ∀ x v, Reads (At start (used ++ v) fun r => K (v ++ r) ∧ P v x r) (f x) post) :
    Reads (At start used K) (m >>= f) post :=
  (h.reads hK).bind fun x => .ofExists (hf x)

theorem reads_pure {Q : List Lexeme → β → List Lexeme → Prop} {y : β}
    (h : ∀ r, K r → Q used y r) :
    Reads (At start used K) (pure y) fun y s => ∃ u, At start u (Q u y) s :=
  .pure fun _ hs => ⟨used, hs.imp h⟩

instance : Nonempty Lexeme := ⟨⟨.symbol .semi, .origin⟩⟩

theorem peek_then {f : Option Token → Reader β}
    (hf : ∀ o, Reads (At start used fun r => K r ∧ o = r.head?.map (·.token)) (f o) post) :
    Reads (At start used K) (peek? >>= f) post := by
  have h : Reads (At start used K) peek? fun o => At start used fun r =>
      K r ∧ o = r.head?.map (·.token) := fun _ hs hpre =>
    ⟨.refl hs, fun hc => ⟨(hpre hc).split, (hpre hc).state, (hpre hc).holds, rfl⟩⟩
  exact h.bind hf

theorem nextSpan_then {f : Span → Reader β}
    (hf : ∀ span, Reads (At start used fun r => K r ∧ ∀ x xs, r = x :: xs → span = x.span)
      (f span) post) :
    Reads (At start used K) (nextSpan >>= f) post := by
  have h : Reads (At start used K) nextSpan fun span => At start used fun r =>
      K r ∧ ∀ x xs, r = x :: xs → span = x.span := by
    refine fun s hs hpre => ⟨.refl hs, fun hc => ?_⟩
    refine ⟨(hpre hc).split, (hpre hc).state, (hpre hc).holds, fun x xs hx => ?_⟩
    rw [hx]
    rfl
  exact h.bind hf

theorem lastSpan_then {f : Span → Reader β}
    (hf : ∀ span, Reads (At start used fun r => K r ∧ ∀ x, used.getLast? = some x → span = x.span)
      (f span) post) :
    Reads (At start used K) (lastSpan >>= f) post := by
  have h : Reads (At start used K) lastSpan fun span => At start used fun r =>
      K r ∧ ∀ x, used.getLast? = some x → span = x.span := by
    refine fun s hs hpre => ⟨.refl hs, fun hc => ?_⟩
    refine ⟨(hpre hc).split, (hpre hc).state, (hpre hc).holds, fun x hx => ?_⟩
    rw [(hpre hc).state]
    simp [State.passed, hx]
  exact h.bind hf

theorem State.advance_reporter (s : State) : s.advance.reporter = s.reporter := by
  unfold State.advance
  split
  · rfl
  · rfl

theorem advance_then {f : Unit → Reader β} (hK : ∀ r, K r → r ≠ [])
    (hf : ∀ x, Reads (At start (used ++ [x]) fun r => K (x :: r)) (f ()) post) :
    Reads (At start used K) (advance >>= f) post := by
  have h : Reads (At start used K) advance fun _ s =>
      ∃ x, At start (used ++ [x]) (fun r => K (x :: r)) s := by
    intro s hs hpre
    have hr := s.advance_reporter
    refine ⟨⟨by rw [hr, hs], by rw [hr]⟩, fun hc => ?_⟩
    have hat := hpre (by simpa only [State.Clean, hr] using hc)
    rcases hs' : s.ahead with _ | ⟨x, xs⟩
    · exact absurd hs' (hK _ hat.holds)
    · rw [State.advance_eq hs']
      exact ⟨x, hat.step hs'⟩
  exact h.bind fun _ => .ofExists hf

theorem nextIs_then {t : Token} {f : Bool → Reader β}
    (hf : ∀ b, Reads (At start used fun r => K r ∧ b = decide (r.head?.map (·.token) = some t))
      (f b) post) :
    Reads (At start used K) (nextIs t >>= f) post := by
  unfold nextIs
  rw [bind_assoc]
  apply peek_then
  intro o
  rw [pure_bind]
  exact (hf _).weaken fun _ hs => hs.imp fun r ⟨hr, ho⟩ => ⟨hr, by rw [ho]⟩

theorem take_then {t : Token} {f : Option Span → Reader β}
    (hsome : ∀ span x, Reads (At start (used ++ [x]) fun r => K (x :: r) ∧ x.token = t ∧
      span = x.span) (f (some span)) post)
    (hnone : Reads (At start used fun r => K r ∧ r.head?.map (·.token) ≠ some t) (f none) post) :
    Reads (At start used K) (take? t >>= f) post := by
  unfold take?
  rw [bind_assoc]
  apply nextIs_then
  intro b
  cases b with
  | true =>
    simp only [if_true, bind_assoc, pure_bind]
    apply nextSpan_then
    intro span
    apply advance_then
    · rintro r ⟨⟨-, hr⟩, -⟩ rfl
      simp at hr
    intro x
    refine (hsome span x).weaken fun _ hs => hs.imp ?_
    rintro r ⟨⟨hr, ht⟩, hspan⟩
    exact ⟨hr, by simpa using ht, hspan x r rfl⟩
  | false =>
    simp only [Bool.false_eq_true, if_false, pure_bind]
    exact hnone.weaken fun _ hs => hs.imp fun r ⟨hr, ho⟩ => ⟨hr, by simpa using ho⟩

theorem expect_then {t : Token} {f : Span → Reader β}
    (hf : ∀ span x, Reads (At start (used ++ [x]) fun r => K (x :: r) ∧ x.token = t ∧
      span = x.span) (f span) post) :
    Reads (At start used K) (expect t >>= f) post := by
  unfold expect
  rw [bind_assoc]
  apply take_then
  · intro span x
    simp only [pure_bind]
    exact hf span x
  · have h : Reads (At start used fun r => K r ∧ r.head?.map (·.token) ≠ some t)
        (Reader.expected t.describe : Reader Span) fun _ _ => False := .expected
    exact h.bind fun span => (hf span (Classical.arbitrary _)).weaken fun _ hs => hs.elim

end At

end Quill.Reader
