-- Where a reading goes. A course is a way from one state of a reader to a
-- later one: part of a statement is read, or items one after the other, or a
-- statement is read up to its error. Courses say once what readers do to
-- their state and what is noted on the way; laws of reading are laws of
-- courses.
import Mathlib
import Quill.Proofs.ReaderLogic
import Quill.Proofs.ReadingTapes

namespace Quill

/-- The braces, which only blocks are read with. -/
def Token.isBrace : Token → Bool
  | .symbol .lbrace | .symbol .rbrace => true
  | _ => false

namespace Reader

/-! ## Moving on -/

/-- The span of the next lexeme, or that of the end of the text. -/
def State.next (s : State) : Span := s.ahead.head?.elim s.atEnd (·.span)

/-- The cursor has moved on over some lexemes, and the lexeme read last is the
last of them. -/
def Moved (s t : State) : Prop :=
  ∃ used, s.ahead = used ++ t.ahead ∧ t.last = (used.getLast?.map (·.span)).or s.last ∧
    t.atEnd = s.atEnd

/-- A lexeme that starts at the offset `a` has been read from `s` to `t`. -/
def Starts (s t : State) (a : Nat) : Prop :=
  ∃ x rest, x :: rest <:+ s.ahead ∧ t.ahead <:+ rest ∧ x.span.start = a

section Moving

variable {s t u : State} {x : Lexeme} {xs : List Lexeme} {a : Nat}

theorem Moved.refl (s : State) : Moved s s := ⟨[], by simp⟩

theorem Moved.trans (h : Moved s t) (h' : Moved t u) : Moved s u := by
  obtain ⟨used, hahead, hlast, hend⟩ := h
  obtain ⟨more, hahead', hlast', hend'⟩ := h'
  refine ⟨used ++ more, ?_, ?_, hend'.trans hend⟩
  · rw [hahead, hahead', List.append_assoc]
  · rw [hlast', hlast]
    rcases List.eq_nil_or_concat more with rfl | ⟨more, y, rfl⟩
    · simp
    · simp [← List.append_assoc]

theorem Moved.head (h : s.ahead = x :: xs) : Moved s (s.passed [x] xs) := ⟨[x], h, rfl, rfl⟩

theorem Moved.suffix (h : Moved s t) : t.ahead <:+ s.ahead := by
  obtain ⟨used, hahead, -⟩ := h
  exact ⟨used, hahead.symm⟩

theorem Moved.length_le (h : Moved s t) : t.ahead.length ≤ s.ahead.length := h.suffix.length_le

/-- A cursor that has moved over nothing is where it was. -/
theorem Moved.ahead_eq (h : Moved s t) (hlength : t.ahead.length = s.ahead.length) :
    t.ahead = s.ahead := h.suffix.eq_of_length hlength

theorem Moved.advance (s : State) : Moved s s.advance := by
  rcases hs : s.ahead with _ | ⟨x, xs⟩
  · have : s.advance = s := by
      unfold State.advance
      rw [hs]
    rw [this]
    exact .refl s
  · rw [State.advance_eq hs]
    exact .head hs

theorem Moved.beyond (t start : State) : Moved t (t.beyond start) := by
  unfold State.beyond
  split
  · exact .advance t
  · exact .refl t

/-- What is skipped stands before what is then ahead. -/
theorem skipStatement_split (depth : Nat) (last : Option Span) (ahead : List Lexeme) :
    ∃ skipped, ahead = skipped ++ (skipStatement depth last ahead).2 ∧
      (skipStatement depth last ahead).1 = (skipped.getLast?.map (·.span)).or last := by
  fun_induction skipStatement depth last ahead with
  | case1 depth last => exact ⟨[], rfl, rfl⟩
  | case2 depth last x xs => exact ⟨[], rfl, rfl⟩
  | case3 depth last x xs => exact ⟨[x], rfl, rfl⟩
  | case4 depth last x xs => exact ⟨[], rfl, rfl⟩
  | case5 depth last x xs _ _ _ ih =>
    obtain ⟨skipped, hahead, hlast⟩ := ih
    refine ⟨x :: skipped, by rw [List.cons_append, ← hahead], ?_⟩
    rw [hlast, List.getLast?_cons]
    cases skipped.getLast? <;> rfl

theorem Moved.resume (s : State) (d : Diagnostic) : Moved s (s.resume d) := by
  obtain ⟨skipped, hahead, hlast⟩ := skipStatement_split 0 s.last s.ahead
  exact ⟨skipped, hahead, hlast, rfl⟩

/-- From its error to where reading takes up again. -/
theorem Moved.recover (t start : State) (d : Diagnostic) : Moved t ((t.beyond start).resume d) :=
  (Moved.beyond t start).trans (.resume _ d)

theorem State.skipped_append (s : State) (d : Diagnostic) :
    s.ahead = s.skipped ++ (s.resume d).ahead := by
  obtain ⟨skipped, hahead, -⟩ := skipStatement_split 0 s.last s.ahead
  have hrest : (s.resume d).ahead = (skipStatement 0 s.last s.ahead).2 := rfl
  rw [hrest, State.skipped]
  generalize (skipStatement 0 s.last s.ahead).2 = rest at hahead
  rw [hahead, List.length_append, Nat.add_sub_cancel, List.take_left']
  rfl

/-- After an error reading takes up again at least one lexeme further on. -/
theorem State.resume_beyond_lt {start : State} (d : Diagnostic) (h : Moved start t)
    (hstart : start.ahead ≠ []) :
    ((t.beyond start).resume d).ahead.length < start.ahead.length := by
  refine (Moved.resume (t.beyond start) d).length_le.trans_lt ?_
  unfold State.beyond
  have hle := h.length_le
  split
  · rename_i hlength
    obtain ⟨x, xs, hx⟩ := List.exists_cons_of_ne_nil hstart
    rw [← h.ahead_eq hlength] at hx hstart ⊢
    rw [State.advance_eq hx, State.passed_ahead, hx]
    exact Nat.lt_succ_self _
  · omega

theorem Starts.head (h : s.ahead = x :: xs) : Starts s (s.passed [x] xs) x.span.start :=
  ⟨x, xs, by rw [h], List.suffix_refl xs, rfl⟩

theorem Starts.before (h : Moved s t) (h' : Starts t u a) : Starts s u a := by
  obtain ⟨x, rest, hx, hu, ha⟩ := h'
  exact ⟨x, rest, hx.trans h.suffix, hu, ha⟩

theorem Starts.after (h : Starts s t a) (h' : Moved t u) : Starts s u a := by
  obtain ⟨x, rest, hx, ht, ha⟩ := h
  exact ⟨x, rest, hx, h'.suffix.trans ht, ha⟩

/-- A merged span starts where one of the two does. -/
theorem Starts.merge {p q : Span} (hp : Starts s t p.start) (hq : Starts s t q.start) :
    Starts s t (p.merge q).start := by
  change Starts s t (min p.start q.start)
  rcases min_choice p.start q.start with h | h
  · rwa [h]
  · rwa [h]

theorem Starts.length_lt (h : Starts s t a) : t.ahead.length < s.ahead.length := by
  obtain ⟨x, rest, hx, ht, -⟩ := h
  have := hx.length_le
  have := ht.length_le
  rw [List.length_cons] at *
  omega

end Moving

/-! ## Courses -/

/-- What is being read: part of a statement, items up to a token that stops
them, or a statement that fails. -/
inductive Stage where
  | part
  | items (stops : Token → Bool)
  | failed (d : Diagnostic)

/-- The way of a reading from one state to another, and what is noted on
it. -/
inductive Course : Stage → State → List Event → State → Prop
  | rest (s : State) : Course .part s [] s
  | token {s : State} {x : Lexeme} {xs : List Lexeme} : s.ahead = x :: xs →
      x.token.isBrace = false → Course .part s [] (s.passed [x] xs)
  | trans {s t u : State} {past more : List Event} : Course .part s past t →
      Course .part t more u → Course .part s (past ++ more) u
  | block {s t : State} {past : List Event} {x y : Lexeme} {xs ys : List Lexeme} :
      s.ahead = x :: xs → x.token = .symbol .lbrace →
      Course (.items (· = .symbol .rbrace)) (s.passed [x] xs) past t →
      t.ahead = y :: ys → y.token = .symbol .rbrace →
      Course .part s (past ++ [.block s (t.passed [y] ys)]) (t.passed [y] ys)
  | done (stops : Token → Bool) (s : State) : Course (.items stops) s [] s
  | semicolon {stops : Token → Bool} {s t : State} {past : List Event} {x : Lexeme}
      {xs : List Lexeme} : s.ahead = x :: xs → x.token = .symbol .semi →
      Course (.items stops) (s.passed [x] xs) past t → Course (.items stops) s past t
  | kept {stops : Token → Bool} {s t u : State} {past more : List Event} {x : Lexeme}
      {xs : List Lexeme} : s.ahead = x :: xs → stops x.token = false → Course .part s past t →
      t.ahead.length < s.ahead.length → Course (.items stops) t more u →
      Course (.items stops) s (past ++ .tried s none t :: more) u
  | dropped {stops : Token → Bool} {s t u : State} {d : Diagnostic} {past more : List Event}
      {x : Lexeme} {xs : List Lexeme} : s.ahead = x :: xs → stops x.token = false →
      Course (.failed d) s past t → Course (.items stops) ((t.beyond s).resume d) more u →
      Course (.items stops) s
        (past ++ .tried s (some ⟨d, t, (t.beyond s).skipped⟩) ((t.beyond s).resume d) :: more) u
  | expected {s : State} {d : Diagnostic} : d.span = s.next → Course (.failed d) s [] s
  | target {s t : State} {d : Diagnostic} : Course .part s [] t → Starts s t d.span.start →
      Course (.failed d) s [] t
  | unclosed {s t : State} {d : Diagnostic} {past : List Event} {x : Lexeme} {xs : List Lexeme} :
      s.ahead = x :: xs → x.token = .symbol .lbrace →
      Course (.items (· = .symbol .rbrace)) (s.passed [x] xs) past t → t.ahead = [] →
      d.span = t.next → Course (.failed d) s past t
  | later {s t u : State} {d : Diagnostic} {past more : List Event} : Course .part s past t →
      Course (.failed d) t more u → Course (.failed d) s (past ++ more) u

/-- On every course the cursor moves on. -/
theorem Course.moved {stage : Stage} {s t : State} {past : List Event}
    (h : Course stage s past t) : Moved s t := by
  induction h with
  | rest s => exact .refl s
  | token hs _ => exact .head hs
  | trans _ _ ih ih' => exact ih.trans ih'
  | block hs _ _ ht _ ih => exact (Moved.head hs).trans (ih.trans (.head ht))
  | done stops s => exact .refl s
  | semicolon hs _ _ ih => exact (Moved.head hs).trans ih
  | kept _ _ _ _ _ ih ih' => exact ih.trans ih'
  | dropped _ _ _ _ ih ih' => exact ih.trans ((Moved.recover _ _ _).trans ih')
  | expected _ => exact .refl _
  | target _ _ ih => exact ih
  | unclosed hs _ _ _ _ ih => exact (Moved.head hs).trans ih
  | later _ _ ih ih' => exact ih.trans ih'

/-- The event begins after `s` and ends before `t`. -/
structure Event.Between (s t : State) (e : Event) : Prop where
  before : Moved s e.start
  during : Moved e.start e.finish
  after : Moved e.finish t

theorem Event.Between.widen {s s' t t' : State} {e : Event} (h : e.Between s t) (hs : Moved s' s)
    (ht : Moved t t') : e.Between s' t' := ⟨hs.trans h.before, h.during, h.after.trans ht⟩

section Events

variable {stage : Stage} {s t : State} {past : List Event} {e : Event}

/-- What happens on a course happens between its two ends. -/
theorem Course.between (h : Course stage s past t) (he : e ∈ past) : e.Between s t := by
  induction h with
  | rest s => cases he
  | token _ _ => cases he
  | trans h h' ih ih' =>
    rcases List.mem_append.mp he with he | he
    · exact (ih he).widen (.refl _) h'.moved
    · exact (ih' he).widen h.moved (.refl _)
  | block hs hx h ht hy ih =>
    rcases List.mem_append.mp he with he | he
    · exact (ih he).widen (.head hs) (.head ht)
    · obtain rfl := List.mem_singleton.mp he
      exact ⟨.refl _, (Course.block hs hx h ht hy).moved, .refl _⟩
  | done stops s => cases he
  | semicolon hs _ _ ih => exact (ih he).widen (.head hs) (.refl _)
  | kept _ _ h _ h' ih ih' =>
    rcases List.mem_append.mp he with he | he
    · exact (ih he).widen (.refl _) h'.moved
    rcases List.mem_cons.mp he with rfl | he
    · exact ⟨.refl _, h.moved, h'.moved⟩
    · exact (ih' he).widen h.moved (.refl _)
  | @dropped _ s t _ d _ _ _ _ _ _ h h' ih ih' =>
    have hrecover := Moved.recover t s d
    rcases List.mem_append.mp he with he | he
    · exact (ih he).widen (.refl _) (hrecover.trans h'.moved)
    rcases List.mem_cons.mp he with rfl | he
    · exact ⟨.refl _, h.moved.trans hrecover, h'.moved⟩
    · exact (ih' he).widen (h.moved.trans hrecover) (.refl _)
  | expected _ => cases he
  | target _ _ _ => cases he
  | unclosed hs _ _ _ _ ih => exact (ih he).widen (.head hs) (.refl _)
  | later h h' ih ih' =>
    rcases List.mem_append.mp he with he | he
    · exact (ih he).widen (.refl _) h'.moved
    · exact (ih' he).widen h.moved (.refl _)

/-- What is true of an event because of the course that it ends is true of
every event. The events on these courses are among the events at hand. -/
theorem Course.forall_mem {M : Event → Prop} {all : List Event} (h : Course stage s past t)
    (hall : past ⊆ all)
    (hblock : ∀ {s t : State} {past : List Event} {x y : Lexeme} {xs ys : List Lexeme},
      s.ahead = x :: xs → x.token = .symbol .lbrace →
      Course (.items (· = .symbol .rbrace)) (s.passed [x] xs) past t → t.ahead = y :: ys →
      y.token = .symbol .rbrace → past ⊆ all → M (.block s (t.passed [y] ys)))
    (hkept : ∀ {s t : State} {past : List Event}, s.ahead ≠ [] → Course .part s past t →
      t.ahead.length < s.ahead.length → past ⊆ all → M (.tried s none t))
    (hdropped : ∀ {s t : State} {d : Diagnostic} {past : List Event}, s.ahead ≠ [] →
      Course (.failed d) s past t → past ⊆ all →
      M (.tried s (some ⟨d, t, (t.beyond s).skipped⟩) ((t.beyond s).resume d))) :
    ∀ e ∈ past, M e := by
  induction h with
  | rest s => exact nofun
  | token _ _ => exact nofun
  | trans _ _ ih ih' =>
    obtain ⟨hpast, hmore⟩ := List.append_subset.mp hall
    exact List.forall_mem_append.mpr ⟨ih hpast, ih' hmore⟩
  | block hs hx h ht hy ih =>
    obtain ⟨hpast, -⟩ := List.append_subset.mp hall
    refine List.forall_mem_append.mpr ⟨ih hpast, ?_⟩
    exact List.forall_mem_singleton.mpr (hblock hs hx h ht hy hpast)
  | done stops s => exact nofun
  | semicolon _ _ _ ih => exact ih hall
  | kept hs _ h hlt _ ih ih' =>
    obtain ⟨hpast, hmore⟩ := List.append_subset.mp hall
    refine List.forall_mem_append.mpr ⟨ih hpast, List.forall_mem_cons.mpr ⟨?_, ?_⟩⟩
    · exact hkept (by rw [hs]; exact List.cons_ne_nil _ _) h hlt hpast
    · exact ih' (List.cons_subset.mp hmore).2
  | dropped hs _ h _ ih ih' =>
    obtain ⟨hpast, hmore⟩ := List.append_subset.mp hall
    refine List.forall_mem_append.mpr ⟨ih hpast, List.forall_mem_cons.mpr ⟨?_, ?_⟩⟩
    · exact hdropped (by rw [hs]; exact List.cons_ne_nil _ _) h hpast
    · exact ih' (List.cons_subset.mp hmore).2
  | expected _ => exact nofun
  | target _ _ _ => exact nofun
  | unclosed _ _ _ _ _ ih => exact ih hall
  | later _ _ ih ih' =>
    obtain ⟨hpast, hmore⟩ := List.append_subset.mp hall
    exact List.forall_mem_append.mpr ⟨ih hpast, ih' hmore⟩

end Events

/-- Semicolons may stand before items. -/
theorem Course.semicolons {stops : Token → Bool} {s t : State} {past : List Event}
    {semis rest : List Lexeme} (hs : s.ahead = semis ++ rest)
    (hsemis : ∀ x ∈ semis, x.token = .symbol .semi)
    (h : Course (.items stops) (s.passed semis rest) past t) : Course (.items stops) s past t := by
  induction semis generalizing s with
  | nil =>
    obtain rfl : s.ahead = rest := hs
    rwa [State.passed_nil] at h
  | cons x semis ih =>
    obtain ⟨hx, hsemis⟩ := List.forall_mem_cons.mp hsemis
    refine .semicolon hs hx (ih rfl hsemis ?_)
    rwa [State.passed_passed]

/-! ## Readers that try no statement -/

variable {α β : Type}

/-- Both results are the same. The cursor has moved over lexemes that are no
braces, and an error is about what comes next. -/
inductive Scanned (P : α → State → Prop) (s : State) :
    EStateM.Result Diagnostic State α → EStateM.Result Diagnostic State α → Prop
  | ok {x : α} {t : State} : Course .part s [] t → P x t → Scanned P s (.ok x t) (.ok x t)
  | error {d : Diagnostic} {t : State} : Course .part s [] t → d.span = t.next →
      Scanned P s (.error d t) (.error d t)

/-- From the state `s` both readers do the same, and a result has the
property `P`. -/
def Scans (s : State) (m m' : Reader α) (P : α → State → Prop) : Prop := Scanned P s (m s) (m' s)

section Scans

variable {s : State} {m m' : Reader α} {f f' : α → Reader β} {P P' : α → State → Prop}
  {Q : β → State → Prop} {t : Token} {x : Lexeme} {xs : List Lexeme}

theorem Scans.imp (h : Scans s m m' P) (hP : ∀ x t, Moved s t → P x t → P' x t) :
    Scans s m m' P' := by
  unfold Scans at *
  generalize m s = result, m' s = result' at h
  cases h with
  | ok hcourse hx => exact .ok hcourse (hP _ _ hcourse.moved hx)
  | error hcourse hd => exact .error hcourse hd

theorem Scans.pure {x : α} (h : P x s) : Scans s (pure x) (pure x) P := .ok (.rest s) h

theorem Scans.bind (h : Scans s m m' P)
    (hf : ∀ x t, Moved s t → P x t → Scans t (f x) (f' x) Q) :
    Scans s (m >>= f) (m' >>= f') Q := by
  unfold Scans at *
  simp only [Bind.bind, EStateM.bind]
  generalize m s = result, m' s = result' at h
  cases h with
  | @ok x t hcourse hx =>
    have hnext := hf x t hcourse.moved hx
    dsimp only
    generalize f x t = next, f' x t = next' at hnext
    cases hnext with
    | ok hcourse' hy => exact .ok (.trans hcourse hcourse') hy
    | error hcourse' hd => exact .error (.trans hcourse hcourse') hd
  | error hcourse hd => exact .error hcourse hd

theorem scans_expected {what : String} : Scans s (expected what) (expected what) P :=
  .error (.rest s) rfl

theorem scans_peek {f f' : Option Token → Reader β}
    (h : ∀ o, o = s.ahead.head?.map (·.token) → Scans s (f o) (f' o) Q) :
    Scans s (peek? >>= f) (peek? >>= f') Q := h _ rfl

theorem scans_nextSpan {f f' : Span → Reader β} (h : Scans s (f s.next) (f' s.next) Q) :
    Scans s (nextSpan >>= f) (nextSpan >>= f') Q := h

theorem advance_scans (hs : s.ahead = x :: xs) (hx : x.token.isBrace = false) :
    Scans s advance advance fun _ t => t = s.passed [x] xs := by
  have hstep : advance s = .ok () (s.passed [x] xs) := by
    unfold advance
    rw [State.advance_eq hs]
  unfold Scans
  rw [hstep]
  exact .ok (.token hs hx) rfl

theorem scans_advance {f f' : Unit → Reader β} (hs : s.ahead = x :: xs)
    (hx : x.token.isBrace = false) (h : Scans (s.passed [x] xs) (f ()) (f' ()) Q) :
    Scans s (advance >>= f) (advance >>= f') Q := by
  refine (advance_scans hs hx).bind ?_
  rintro _ _ - rfl
  exact h

/-- What `take?` does, by what comes next. -/
theorem take?_cons (hs : s.ahead = x :: xs) : take? t s =
    if x.token = t then .ok (some x.span) (s.passed [x] xs) else .ok none s := by
  have hnext : nextIs t s = .ok (decide (x.token = t)) s := by
    simp [nextIs, peek?, Bind.bind, EStateM.bind, hs, Pure.pure, EStateM.pure]
  have hspan : nextSpan s = .ok x.span s := by simp [nextSpan, hs]
  unfold take?
  simp only [Bind.bind, EStateM.bind, hnext]
  by_cases hx : x.token = t
  · simp only [hx, decide_true, ↓reduceIte, EStateM.bind, hspan, advance,
      State.advance_eq hs, Pure.pure, EStateM.pure]
  · simp [hx, Pure.pure, EStateM.pure]

theorem take?_nil (hs : s.ahead = []) : take? t s = .ok none s := by
  simp [take?, nextIs, peek?, Bind.bind, EStateM.bind, hs, Pure.pure, EStateM.pure]

/-- What `expect` does, by what comes next. -/
theorem expect_eq : (∃ x xs, s.ahead = x :: xs ∧ x.token = t ∧
      expect t s = .ok x.span (s.passed [x] xs)) ∨
    (s.ahead.head?.map (·.token) ≠ some t ∧ ∃ d, d.span = s.next ∧ expect t s = .error d s) := by
  unfold expect
  simp only [Bind.bind, EStateM.bind]
  rcases hs : s.ahead with _ | ⟨x, xs⟩
  · rw [take?_nil hs]
    exact .inr ⟨by simp, _, rfl, rfl⟩
  · rw [take?_cons hs]
    by_cases hx : x.token = t
    · rw [if_pos hx]
      exact .inl ⟨x, xs, rfl, hx, rfl⟩
    · rw [if_neg hx]
      exact .inr ⟨by simpa using hx, _, rfl, rfl⟩

theorem take?_scans (ht : t.isBrace = false) : Scans s (take? t) (take? t) fun o u =>
    o = none ∧ u = s ∨
      ∃ x xs, s.ahead = x :: xs ∧ x.token = t ∧ o = some x.span ∧ u = s.passed [x] xs := by
  unfold Scans
  rcases hs : s.ahead with _ | ⟨x, xs⟩
  · rw [take?_nil hs]
    exact .ok (.rest s) (.inl ⟨rfl, rfl⟩)
  · rw [take?_cons hs]
    split
    · rename_i hx
      exact .ok (.token hs (hx ▸ ht)) (.inr ⟨x, xs, rfl, hx, rfl, rfl⟩)
    · exact .ok (.rest s) (.inl ⟨rfl, rfl⟩)

theorem scans_take {f f' : Option Span → Reader β} (ht : t.isBrace = false)
    (hsome : ∀ x xs, s.ahead = x :: xs → x.token = t →
      Scans (s.passed [x] xs) (f (some x.span)) (f' (some x.span)) Q)
    (hnone : Scans s (f none) (f' none) Q) : Scans s (take? t >>= f) (take? t >>= f') Q := by
  refine (take?_scans ht).bind ?_
  rintro o u - (⟨rfl, rfl⟩ | ⟨x, xs, hs, hx, rfl, rfl⟩)
  · exact hnone
  · exact hsome x xs hs hx

theorem expect_scans (ht : t.isBrace = false) : Scans s (expect t) (expect t) fun span u =>
    ∃ x xs, s.ahead = x :: xs ∧ x.token = t ∧ span = x.span ∧ u = s.passed [x] xs := by
  unfold Scans
  rcases expect_eq with ⟨x, xs, hs, hx, heq⟩ | ⟨-, d, hd, heq⟩
  · rw [heq]
    exact .ok (.token hs (hx ▸ ht)) ⟨x, xs, hs, hx, rfl, rfl⟩
  · rw [heq]
    exact .error (.rest s) hd

theorem scans_expect {f f' : Span → Reader β} (ht : t.isBrace = false)
    (h : ∀ x xs, s.ahead = x :: xs → x.token = t →
      Scans (s.passed [x] xs) (f x.span) (f' x.span) Q) :
    Scans s (expect t >>= f) (expect t >>= f') Q := by
  refine (expect_scans ht).bind ?_
  rintro _ _ - ⟨x, xs, hs, hx, rfl, rfl⟩
  exact h x xs hs hx

end Scans

end Reader

end Quill
