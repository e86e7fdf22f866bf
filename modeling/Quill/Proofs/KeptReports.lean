-- What a reporter keeps, whatever is reported to it and handled in between.
-- A report counts if it is forced or the first since the last one was
-- handled, and each report that counts is kept once, where it came first.
import Mathlib
import Quill.Diagnostic

namespace Quill.Reporter

/-! ## Steps -/

/-- What can be done with a reporter. -/
inductive Step where
  | report (d : Diagnostic) (force : Bool)
  | handled

def Step.isReport : Step → Bool
  | .report _ _ => true
  | .handled => false

/-- The reporter after a step. -/
def step (r : Reporter) : Step → Reporter
  | .report d force => r.report d force
  | .handled => r.handled

/-- A new reporter after some steps. -/
def after (steps : List Step) : Reporter := steps.foldl step empty

theorem after_concat (steps : List Step) (x : Step) :
    after (steps ++ [x]) = (after steps).step x := by simp [after]

/-! ## Reports that count -/

/-- The reports since the last time that an error was handled, or since
the start. -/
def unhandled (steps : List Step) : List Step := (steps.reverse.takeWhile Step.isReport).reverse

/-- The message of a step after the steps `before`, if it is a report that
counts: it is forced, or no report has come since the last was handled. -/
def Step.counted? (before : List Step) : Step → Option Diagnostic
  | .report d force => if force = true ∨ unhandled before = [] then some d else none
  | .handled => none

/-- The messages that count of steps that come after others, in order. -/
def countedFrom (before : List Step) : List Step → List Diagnostic
  | [] => []
  | x :: later => (x.counted? before).toList ++ countedFrom (before ++ [x]) later

/-- The messages that count, in order. -/
def counted (steps : List Step) : List Diagnostic := countedFrom [] steps

theorem countedFrom_append (before xs ys : List Step) :
    countedFrom before (xs ++ ys) = countedFrom before xs ++ countedFrom (before ++ xs) ys := by
  induction xs generalizing before with
  | nil => simp [countedFrom]
  | cons x xs ih => simp [countedFrom, ih]

theorem counted_concat (steps : List Step) (x : Step) :
    counted (steps ++ [x]) = counted steps ++ (x.counted? steps).toList := by
  simp [counted, countedFrom_append, countedFrom]

theorem unhandled_report (steps : List Step) (d : Diagnostic) (force : Bool) :
    unhandled (steps ++ [.report d force]) = unhandled steps ++ [.report d force] := by
  simp [unhandled, List.takeWhile_cons, Step.isReport]

theorem unhandled_handled (steps : List Step) : unhandled (steps ++ [.handled]) = [] := by
  simp [unhandled, Step.isReport]

theorem unhandled_eq_nil {steps : List Step} (h : ¬∃ d force, .report d force ∈ steps) :
    unhandled steps = [] := by
  rw [List.eq_nil_iff_forall_not_mem]
  intro x hx
  rw [unhandled, List.mem_reverse] at hx
  have hmem : x ∈ steps := List.mem_reverse.mp ((List.takeWhile_sublist _).subset hx)
  have hreport : x.isReport = true := List.mem_takeWhile_imp hx
  cases x with
  | report d force => exact h ⟨d, force, hmem⟩
  | handled => simp [Step.isReport] at hreport

/-! ## What a step does -/

/-- After a report an error is pending, also if the report was dropped:
then one was pending before. -/
theorem pending_report (r : Reporter) (d : Diagnostic) (force : Bool) :
    (r.report d force).pending = true := by
  unfold report
  split
  · rename_i hdropped
    simp only [Bool.and_eq_true] at hdropped
    exact hdropped.1
  · split <;> rfl

/-- A report is kept at the end, or the reporter keeps what it had. -/
theorem kept_report (r : Reporter) (d : Diagnostic) (force : Bool) :
    (r.report d force).kept =
      if (force = true ∨ r.pending = false) ∧ d ∉ r.kept then r.kept ++ [d] else r.kept := by
  unfold report
  by_cases hknown : d ∈ r.kept
  · cases r.pending <;> cases force <;> simp [hknown]
  · cases hp : r.pending <;> cases force <;> simp [hknown]

theorem prefix_step (r : Reporter) (x : Step) : r.kept <+: (r.step x).kept := by
  cases x with
  | handled => exact List.prefix_rfl
  | report d force =>
    rw [step, kept_report]
    split
    · exact List.prefix_append r.kept [d]
    · exact List.prefix_rfl

theorem nodup_step {r : Reporter} (h : r.kept.Nodup) (x : Step) : (r.step x).kept.Nodup := by
  cases x with
  | handled => exact h
  | report d force =>
    rw [step, kept_report]
    split
    · rename_i hnew
      refine List.nodup_append.mpr ⟨h, List.nodup_singleton d, ?_⟩
      rintro a ha b hb rfl
      exact hnew.2 (List.mem_singleton.mp hb ▸ ha)
    · exact h

/-! ## What any steps do -/

theorem prefix_foldl (r : Reporter) (steps : List Step) : r.kept <+: (steps.foldl step r).kept := by
  induction steps generalizing r with
  | nil => exact List.prefix_rfl
  | cons x steps ih => exact (prefix_step r x).trans (ih (r.step x))

theorem nodup_after (steps : List Step) : (after steps).kept.Nodup := by
  induction steps using List.reverseRecOn with
  | nil => exact List.nodup_nil
  | append_singleton steps x ih =>
    rw [after_concat]
    exact nodup_step ih x

/-- An error is pending as long as there is a report that was not handled. -/
theorem pending_after (steps : List Step) :
    (after steps).pending = false ↔ unhandled steps = [] := by
  induction steps using List.reverseRecOn with
  | nil => exact ⟨fun _ => rfl, fun _ => rfl⟩
  | append_singleton steps x _ =>
    rw [after_concat]
    cases x with
    | report d force => simp [step, pending_report, unhandled_report]
    | handled => simp [step, handled, unhandled_handled]

theorem eraseDups_concat (ds : List Diagnostic) (d : Diagnostic) :
    (ds ++ [d]).eraseDups = if d ∈ ds then ds.eraseDups else ds.eraseDups ++ [d] := by
  rw [List.eraseDups_append]
  split
  · rename_i hd
    simp [List.removeAll, hd]
  · rename_i hd
    simp [List.removeAll, hd, List.eraseDups_cons]

theorem kept_after (steps : List Step) : (after steps).kept = (counted steps).eraseDups := by
  induction steps using List.reverseRecOn with
  | nil => rfl
  | append_singleton steps x ih =>
    rw [after_concat, counted_concat]
    cases x with
    | handled => simpa [step, handled, Step.counted?] using ih
    | report d force =>
      simp only [step, kept_report, pending_after, ih, List.mem_eraseDups, Step.counted?]
      by_cases hcounts : force = true ∨ unhandled steps = []
      · by_cases hknown : d ∈ counted steps
        · simp [hcounts, hknown, eraseDups_concat]
        · simp [hcounts, hknown, eraseDups_concat]
      · simp [hcounts]

/-- Something is kept as soon as something was reported: the first report
of all finds no error pending. -/
theorem kept_ne_nil_iff (steps : List Step) :
    (after steps).kept ≠ [] ↔ ∃ d force, .report d force ∈ steps := by
  induction steps using List.reverseRecOn with
  | nil => simp [after, empty]
  | append_singleton steps x ih =>
    rw [after_concat]
    cases x with
    | handled => simpa [step, handled] using ih
    | report d force =>
      refine ⟨fun _ => ⟨d, force, by simp⟩, fun _ => ?_⟩
      by_cases hbefore : (after steps).kept = []
      · have hnone : unhandled steps = [] := unhandled_eq_nil fun hsome => ih.mpr hsome hbefore
        simp [step, kept_report, hbefore, (pending_after steps).mpr hnone]
      · intro hnil
        exact hbefore (List.prefix_nil.mp (hnil ▸ prefix_step _ (.report d force)))

/-! ## What a reporter keeps -/

/-- However a new reporter is used, it keeps the reports that count, in order
and each where it came first. So no two are equal, later steps only add at
the end, and there are errors as soon as one was ever reported. -/
theorem kept_reports (steps more : List Step) :
    (after steps).kept = (counted steps).eraseDups ∧
    (after steps).kept.Nodup ∧
    (after steps).kept <+: (after (steps ++ more)).kept ∧
    ((after steps).hasErrors = true ↔ ∃ d force, .report d force ∈ steps) := by
  refine ⟨kept_after steps, nodup_after steps, ?_, ?_⟩
  · rw [after, after, List.foldl_append]
    exact prefix_foldl _ more
  · rw [← kept_ne_nil_iff]
    simp [hasErrors]

/-- Of four reports the second is dropped and the third is kept already. -/
example :
    let a : Diagnostic := ⟨"a", .origin⟩
    let b : Diagnostic := ⟨"b", .origin⟩
    (after [.report a false, .report b false, .handled, .report a false, .report b true]).kept =
      [a, b] := by decide

end Quill.Reporter
