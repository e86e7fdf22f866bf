-- How values are written. A drawing is a value written out, with a mark in
-- the place of every array that is being written already. Every value has a
-- drawing, whatever cycles there are, and its text is the text of the drawing.
import Mathlib
import Quill.Proofs.PrintedValues
import Quill.Proofs.ValuePlaces

namespace Quill

/-! ## Drawings -/

/-- A value written out: a value that is no array, the mark of an array that
is being written already, or an array with its elements. -/
inductive Drawing where
  | leaf (v : Value)
  | mark (id : ArrayId)
  | array (id : ArrayId) (elements : List Drawing)

namespace Drawing

mutual

/-- The text of a drawing that is an element, or no string. -/
def text : Drawing → String
  | leaf v => v.showElement .empty 0 []
  | mark _ => "[...]"
  | array _ elements => "[" ++ ", ".intercalate (texts elements) ++ "]"

def texts : List Drawing → List String
  | [] => []
  | d :: ds => d.text :: texts ds

end

/-- The text of a drawing that is no element: a string is not quoted. -/
def textAlone : Drawing → String
  | leaf (.string s) => s
  | d => d.text

/-- The part of a drawing at a place. -/
def part? : Drawing → List Nat → Option Drawing
  | d, [] => some d
  | array _ elements, k :: ks => (elements[k]?).bind (part? · ks)
  | _, _ :: _ => none

/-- What is drawn of the value `w` at a place inside the arrays `around`: an
array that is one of them is a mark, every other array has a drawing for each
element, and a value that is no array is there as it is. -/
def Shows (h : Heap) (around : List ArrayId) (w : Value) : Drawing → Prop
  | leaf v => w = v ∧ v.kind ≠ .array
  | mark id => w = .array id ∧ id ∈ around
  | array id elements => w = .array id ∧ id ∉ around ∧ elements.length = (h.get id).size

mutual

/-- The drawing shows the value, which lies inside the arrays `opened`, and
its elements show those of the value. -/
def Of (h : Heap) : Drawing → List ArrayId → Value → Prop
  | leaf v, _, w => w = v ∧ v.kind ≠ .array
  | mark id, opened, w => w = .array id ∧ id ∈ opened
  | array id elements, opened, w =>
    w = .array id ∧ id ∉ opened ∧ EachOf h elements (id :: opened) (h.get id).toList

/-- The drawings show the values, one for one. -/
def EachOf (h : Heap) : List Drawing → List ArrayId → List Value → Prop
  | [], _, [] => True
  | d :: ds, opened, w :: ws => d.Of h opened w ∧ EachOf h ds opened ws
  | _, _, _ => False

end

variable {h : Heap} {d : Drawing} {opened : List ArrayId} {v w : Value}

@[simp] theorem part?_nil (d : Drawing) : d.part? [] = some d := by cases d <;> rfl

theorem EachOf.length_eq : ∀ {ds : List Drawing} {ws : List Value}, EachOf h ds opened ws →
    ds.length = ws.length
  | [], [], _ => rfl
  | _ :: _, _ :: _, ⟨_, hds⟩ => congrArg (· + 1) (EachOf.length_eq hds)

/-- Each drawing shows the value at its index. -/
theorem EachOf.getElem? : ∀ {ds : List Drawing} {ws : List Value} (k : Nat),
    EachOf h ds opened ws →
    (ds[k]? = none ∧ ws[k]? = none) ∨ ∃ d w, ds[k]? = some d ∧ ws[k]? = some w ∧ d.Of h opened w
  | [], [], _, _ => .inl ⟨rfl, rfl⟩
  | d :: _, w :: _, 0, ⟨hd, _⟩ => .inr ⟨d, w, rfl, rfl, hd⟩
  | _ :: _, _ :: _, k + 1, ⟨_, hds⟩ => EachOf.getElem? k hds

theorem Of.shows (hd : d.Of h opened v) : d.Shows h opened v := by
  cases d with
  | leaf u => exact hd
  | mark id => exact hd
  | array id elements =>
    obtain ⟨hv, hnew, hall⟩ := hd
    exact ⟨hv, hnew, hall.length_eq.trans Array.length_toList⟩

/-! ## Every value has a drawing -/

theorem exists_each {enough : Nat → Prop} (ws : List Value)
    (hws : ∀ w ∈ ws, ∃ d : Drawing, d.Of h opened w ∧
      ∀ depth, enough depth → w.showElement h depth opened = d.text) :
    ∃ ds, EachOf h ds opened ws ∧
      ∀ depth, enough depth → ws.map (Value.showElement h depth opened) = texts ds := by
  induction ws with
  | nil => exact ⟨[], trivial, fun _ _ => rfl⟩
  | cons w ws ih =>
    obtain ⟨d, hd, htext⟩ := hws w List.mem_cons_self
    obtain ⟨ds, hds, htexts⟩ := ih fun u hu => hws u (List.mem_cons_of_mem w hu)
    refine ⟨d :: ds, ⟨hd, hds⟩, fun depth hdepth => ?_⟩
    rw [List.map_cons, texts, htext depth hdepth, htexts depth hdepth]

/-- Inside arrays that are opened once each there is a drawing of every
value, and its text is what is written with any bound that lets more arrays
be open than there are. -/
theorem exists_drawing {opened : List ArrayId} (hnodup : opened.Nodup)
    (hstored : ∀ a ∈ opened, a < h.size) (v : Value) :
    ∃ d : Drawing, d.Of h opened v ∧
      ∀ depth, h.size < depth + opened.length → v.showElement h depth opened = d.text := by
  -- the induction is on how many arrays are left to open
  cases v with
  | array id =>
    have hpos : ∀ depth, h.size < depth + opened.length → ∃ less, depth = less + 1 := by
      have := Heap.length_le_size hnodup hstored
      exact fun depth hdepth => ⟨depth - 1, by omega⟩
    by_cases hopen : id ∈ opened
    · refine ⟨mark id, ⟨rfl, hopen⟩, fun depth hdepth => ?_⟩
      obtain ⟨less, rfl⟩ := hpos depth hdepth
      rw [Value.showElement_array, if_pos hopen, text]
    · have hnodup' : (id :: opened).Nodup := List.nodup_cons.mpr ⟨hopen, hnodup⟩
      obtain ⟨ds, hds, htexts⟩ := exists_each (h.get id).toList fun w hw => by
        -- an array with an element is in the store, so there was room to open it
        have hid : id < h.size :=
          Heap.lt_size_of_get (Array.size_pos_of_mem (Array.mem_toList_iff.mp hw))
        have hstored' : ∀ a ∈ id :: opened, a < h.size := List.forall_mem_cons.mpr ⟨hid, hstored⟩
        have hroom : opened.length < h.size := Heap.length_le_size hnodup' hstored'
        exact exists_drawing hnodup' hstored' w
      refine ⟨array id ds, ⟨rfl, hopen, hds⟩, fun depth hdepth => ?_⟩
      obtain ⟨less, rfl⟩ := hpos depth hdepth
      rw [Value.showElement_array, if_neg hopen, text, htexts less]
      rw [List.length_cons]
      omega
  | _ => exact ⟨leaf _, ⟨rfl, nofun⟩, fun depth _ => Tree.showElement_leaf (by nofun) depth opened⟩
termination_by h.size - opened.length
decreasing_by
  rw [List.length_cons]
  omega

/-- Alone a value is written as an element is, unless it is a string. -/
theorem Of.showWithin_eq {depth : Nat} (hd : d.Of h [] v)
    (htext : v.showElement h depth [] = d.text) :
    ((v.showWithin h depth).run []).1 = d.textAlone := by
  cases d with
  | leaf u =>
    obtain ⟨rfl, hkind⟩ := hd
    cases v with
    | array id => exact absurd rfl hkind
    | string s => cases depth <;> rfl
    | _ => exact htext
  | mark id => cases hd.2
  | array id elements =>
    obtain ⟨rfl, -⟩ := hd
    exact htext

/-! ## Parts of a drawing -/

/-- The part of a drawing at a place shows what lies there, inside the
arrays around it. -/
theorem Of.part {path : List Nat} {d part : Drawing} {opened : List ArrayId} {v : Value}
    (hd : d.Of h opened v) (hpart : d.part? path = some part) :
    ∃ w, v.follow h path = some w ∧ part.Of h ((v.around h path).reverse ++ opened) w := by
  induction path generalizing d opened v with
  | nil =>
    rw [part?_nil] at hpart
    cases hpart
    exact ⟨v, Value.follow_nil h v, by simpa using hd⟩
  | cons k ks ih =>
    cases d with
    | leaf u => cases hpart
    | mark id => cases hpart
    | array id elements =>
      obtain ⟨rfl, -, hall⟩ := hd
      obtain ⟨e, he, hpart⟩ := Option.bind_eq_some_iff.mp hpart
      rcases hall.getElem? k with ⟨hnone, -⟩ | ⟨e', w, he', hw, hof⟩
      · rw [hnone] at he
        cases he
      · rw [he'] at he
        cases he
        rw [Array.getElem?_toList] at hw
        obtain ⟨u, hu, hpart⟩ := ih hof hpart
        refine ⟨u, (Value.follow_of_getElem? hw).trans hu, ?_⟩
        simpa [Value.around_of_getElem? hw] using hpart

/-- A place is drawn if no array lies around it twice, with those that were
opened before. -/
theorem Of.part_isSome {path : List Nat} {d : Drawing} {opened : List ArrayId} {v : Value}
    (hd : d.Of h opened v) :
    (d.part? path).isSome ↔ (v.follow h path).isSome ∧ (v.around h path).Nodup ∧
      ∀ a ∈ v.around h path, a ∉ opened := by
  induction path generalizing d opened v with
  | nil => simp
  | cons k ks ih =>
    cases d with
    | leaf u =>
      obtain ⟨rfl, hkind⟩ := hd
      cases v with
      | array id => exact absurd rfl hkind
      | _ => simp [part?, Value.follow]
    | mark id =>
      obtain ⟨rfl, hopen⟩ := hd
      simp [part?, Value.around, hopen]
    | array id elements =>
      obtain ⟨rfl, hnew, hall⟩ := hd
      rcases hall.getElem? k with ⟨hnone, hnone'⟩ | ⟨e, w, he, hw, hof⟩
      · rw [Array.getElem?_toList] at hnone'
        simp [part?, Value.follow, hnone, hnone']
      · rw [Array.getElem?_toList] at hw
        rw [Value.follow_of_getElem? hw, Value.around_of_getElem? hw, part?, he, Option.bind_some,
          ih hof]
        rw [List.nodup_cons, List.forall_mem_cons]
        refine and_congr_right fun _ => ?_
        simp only [List.mem_cons, not_or]
        constructor
        · rintro ⟨hnodup, hnot⟩
          exact ⟨⟨fun hmem => (hnot id hmem).1 rfl, hnodup⟩, hnew, fun a ha => (hnot a ha).2⟩
        · rintro ⟨⟨hid, hnodup⟩, -, hnot⟩
          exact ⟨hnodup, fun a ha => ⟨fun heq => hid (heq ▸ ha), hnot a ha⟩⟩

end Drawing

/-! ## The text of a value -/

/-- The text of every value in every store is that of a drawing, and a
larger bound on how many arrays are open at a time changes nothing. Writing a
value leaves the stack of open arrays as it was, so that the arrays around a
value are open while it is written, and those beside it are not. The
places that are drawn are those around which no array lies twice. At each
of them an array is a mark exactly if it is one of the arrays around the
place, and otherwise has all its elements. So a value without cycles is
drawn at all its places and has no mark. -/
theorem Value.text_draws (h : Heap) (v : Value) :
    ∃ d : Drawing, v.text h = d.textAlone ∧
      (∀ depth, h.size < depth → (v.showWithin h depth).run [] = (v.text h, [])) ∧
      (∀ depth opened, ((v.showWithin h depth).run opened).2 = opened) ∧
      (∀ path, (d.part? path).isSome ↔
        (v.follow h path).isSome ∧ (v.around h path).Nodup) ∧
      (∀ path part, d.part? path = some part →
        ∃ w, v.follow h path = some w ∧ part.Shows h (v.around h path) w) ∧
      (v.Acyclic h → ∀ path w, v.follow h path = some w →
        ∃ part, d.part? path = some part ∧ ∀ id, part ≠ .mark id) := by
  obtain ⟨d, hd, htext⟩ := Drawing.exists_drawing (h := h) .nil nofun v
  have hwithin : ∀ depth, h.size < depth → ((v.showWithin h depth).run []).1 = d.textAlone :=
    fun depth hdepth => hd.showWithin_eq (htext depth hdepth)
  have htop : v.text h = d.textAlone := hwithin _ (Nat.lt_succ_self _)
  have hplaces : ∀ path, (d.part? path).isSome ↔
      (v.follow h path).isSome ∧ (v.around h path).Nodup := by
    intro path
    have hplace : (d.part? path).isSome ↔ _ := hd.part_isSome
    simpa using hplace
  have hparts : ∀ path part, d.part? path = some part →
      ∃ w, v.follow h path = some w ∧ part.Shows h (v.around h path) w := by
    intro path part hpart
    obtain ⟨w, hw, hof⟩ := hd.part hpart
    refine ⟨w, hw, ?_⟩
    have hshows := hof.shows
    cases part <;> simpa [Drawing.Shows] using hshows
  refine ⟨d, htop, fun depth hdepth => ?_, fun depth => showWithin_balanced h depth v, hplaces,
    hparts, ?_⟩
  · exact Prod.ext ((hwithin depth hdepth).trans htop.symm) (showWithin_balanced h depth v [])
  · intro hacyclic path w hw
    obtain ⟨part, hpart⟩ := Option.isSome_iff_exists.mp
      ((hplaces path).mpr ⟨by rw [hw]; rfl, hacyclic.nodup_around hw⟩)
    refine ⟨part, hpart, ?_⟩
    rintro id rfl
    obtain ⟨u, hu, rfl, hmem⟩ := hparts path _ hpart
    exact hacyclic (.array id) (reaches_of_follow hu) (transGen_of_mem_around hu hmem)

/-- Two arrays that hold each other, and one of them holds a third one twice:
that is written out twice, and the first has a mark inside the second. -/
theorem Value.text_draws_cycle :
    let h : Heap := ⟨#[#[.int 1], #[.array 0, .array 0, .array 2], #[.array 1, .string "a"]], 0⟩
    (Value.array 1).text h = "[[1], [1], [[...], \"a\"]]" ∧
    ∃ d : Drawing, (Value.array 1).text h = d.textAlone ∧ d.part? [2, 0] = some (.mark 1) := by
  intro h
  obtain ⟨d, htext, -, -, hplaces, hparts, -⟩ := Value.text_draws h (.array 1)
  refine ⟨by decide +kernel, d, htext, ?_⟩
  obtain ⟨part, hpart⟩ := Option.isSome_iff_exists.mp ((hplaces [2, 0]).mpr ⟨rfl, by decide⟩)
  obtain ⟨w, hw, hshows⟩ := hparts _ _ hpart
  obtain rfl : .array 1 = w := Option.some.inj hw
  rw [hpart]
  cases part with
  | leaf v =>
    obtain ⟨rfl, hkind⟩ := hshows
    exact absurd rfl hkind
  | mark id =>
    obtain ⟨hid, -⟩ := hshows
    cases hid
    rfl
  | array id elements =>
    obtain ⟨hid, hnew, -⟩ := hshows
    cases hid
    exact absurd (by decide) hnew

end Quill
