-- Deep copies share nothing. The arrays of a copy are new, and each array
-- comes right after those inside it, so that only one place leads to it.
-- What is later done through the copy is not seen through any other value,
-- and the other way round.
import Mathlib
import Quill.Proofs.OperationErrors
import Quill.Proofs.ValuePlaces

namespace Quill

/-! ## Rows of arrays -/

namespace Tree

mutual

/-- The value stands for the tree, and its arrays are those from `lo` up to
`hi`, each right after those inside it. -/
def Row (h : Heap) : Tree → Value → Nat → Nat → Prop
  | leaf v, w, lo, hi => w = v ∧ v.kind ≠ .array ∧ lo = hi
  | array elements, w, lo, hi =>
    ∃ id, w = .array id ∧ hi = id + 1 ∧ id < h.size ∧ EachRow h elements (h.get id).toList lo id

/-- The values stand for the trees, and their arrays follow one another. -/
def EachRow (h : Heap) : List Tree → List Value → Nat → Nat → Prop
  | [], [], lo, hi => lo = hi
  | t :: ts, w :: ws, lo, hi => ∃ mid, t.Row h w lo mid ∧ EachRow h ts ws mid hi
  | _, _, _, _ => False

end

variable {h : Heap} {lo hi : Nat}

mutual

theorem Row.of : ∀ {t : Tree} {v : Value} {lo hi : Nat}, t.Row h v lo hi → t.Of h v
  | leaf _, _, _, _, ⟨hv, hkind, _⟩ => ⟨hv, hkind⟩
  | array _, _, _, _, ⟨id, hv, _, hid, hall⟩ => ⟨id, hv, hid, EachRow.of hall⟩

theorem EachRow.of : ∀ {ts : List Tree} {vs : List Value} {lo hi : Nat},
    EachRow h ts vs lo hi → EachOf h ts vs
  | [], [], _, _, _ => trivial
  | _ :: _, _ :: _, _, _, ⟨_, ht, hts⟩ => ⟨Row.of ht, EachRow.of hts⟩

end

mutual

theorem Row.le : ∀ {t : Tree} {v : Value} {lo hi : Nat}, t.Row h v lo hi → lo ≤ hi
  | leaf _, _, _, _, ⟨_, _, hlo⟩ => le_of_eq hlo
  | array _, _, _, _, ⟨_, _, hhi, _, hall⟩ => hhi ▸ Nat.le_succ_of_le (EachRow.le hall)

theorem EachRow.le : ∀ {ts : List Tree} {vs : List Value} {lo hi : Nat},
    EachRow h ts vs lo hi → lo ≤ hi
  | [], [], _, _, hlo => le_of_eq hlo
  | _ :: _, _ :: _, _, _, ⟨_, ht, hts⟩ => (Row.le ht).trans (EachRow.le hts)

end

mutual

/-- More arrays in the store change no row. -/
theorem Row.extend (more : Array (Array Value)) : ∀ {t : Tree} {v : Value} {lo hi : Nat},
    t.Row h v lo hi → t.Row (h.extend more) v lo hi
  | leaf _, _, _, _, hleaf => hleaf
  | array _, _, _, _, ⟨id, hv, hhi, hid, hall⟩ => by
    refine ⟨id, hv, hhi, ?_, ?_⟩
    · rw [Heap.size_extend]
      exact Nat.lt_add_right more.size hid
    · rw [Heap.get_extend_of_lt more hid]
      exact EachRow.extend more hall

theorem EachRow.extend (more : Array (Array Value)) : ∀ {ts : List Tree} {vs : List Value}
    {lo hi : Nat}, EachRow h ts vs lo hi → EachRow (h.extend more) ts vs lo hi
  | [], [], _, _, hlo => hlo
  | _ :: _, _ :: _, _, _, ⟨mid, ht, hts⟩ => ⟨mid, Row.extend more ht, EachRow.extend more hts⟩

end

/-! ## One place for each array of a row -/

mutual

/-- All arrays inside the value are of the row. -/
theorem Row.mem_range : ∀ {t : Tree} {v : Value} {lo hi : Nat} {path : List Nat} {id : ArrayId},
    t.Row h v lo hi → v.follow h path = some (.array id) → lo ≤ id ∧ id < hi
  | leaf _, _, _, _, [], _, ⟨rfl, hkind, _⟩, hpath => by
    rw [Value.follow_nil] at hpath
    cases hpath
    exact absurd rfl hkind
  | leaf _, _, _, _, _ :: _, _, ⟨rfl, hkind, _⟩, hpath => by
    obtain ⟨id, _, rfl, -⟩ := Value.follow_cons_eq_some hpath
    exact absurd rfl hkind
  | array _, _, _, _, [], _, ⟨id, rfl, rfl, _, hall⟩, hpath => by
    rw [Value.follow_nil] at hpath
    cases hpath
    exact ⟨hall.le, Nat.lt_succ_self _⟩
  | array _, _, _, _, k :: path, _, ⟨id, rfl, rfl, _, hall⟩, hpath => by
    obtain ⟨_, w, hid, hw, hpath⟩ := Value.follow_cons_eq_some hpath
    cases hid
    rw [← Array.getElem?_toList] at hw
    obtain ⟨hlo, hhi⟩ := EachRow.mem_range hall hw hpath
    exact ⟨hlo, Nat.lt_succ_of_lt hhi⟩

theorem EachRow.mem_range : ∀ {ts : List Tree} {vs : List Value} {lo hi k : Nat} {v : Value}
    {path : List Nat} {id : ArrayId}, EachRow h ts vs lo hi → vs[k]? = some v →
    v.follow h path = some (.array id) → lo ≤ id ∧ id < hi
  | [], [], _, _, _, _, _, _, _, hk, _ => by simp at hk
  | _ :: _, _ :: _, _, _, 0, _, _, _, ⟨_, ht, hts⟩, hk, hpath => by
    cases hk
    obtain ⟨hlo, hhi⟩ := Row.mem_range ht hpath
    exact ⟨hlo, hhi.trans_le hts.le⟩
  | _ :: _, _ :: _, _, _, k + 1, _, _, _, ⟨_, ht, hts⟩, hk, hpath => by
    obtain ⟨hlo, hhi⟩ := EachRow.mem_range hts hk hpath
    exact ⟨ht.le.trans hlo, hhi⟩

end

/-- The outermost array is the last of the row, and those inside it come
before. -/
theorem EachRow.follow_ne {ts : List Tree} {id : ArrayId} {k : Nat} {path : List Nat}
    (hall : EachRow h ts (h.get id).toList lo id) :
    (Value.array id).follow h (k :: path) ≠ some (.array id) := by
  intro hpath
  obtain ⟨_, w, hid, hw, hpath⟩ := Value.follow_cons_eq_some hpath
  cases hid
  rw [← Array.getElem?_toList] at hw
  exact absurd (hall.mem_range hw hpath).2 (Nat.lt_irrefl _)

mutual

/-- Only one place leads to an array of a row. -/
theorem Row.path_unique {p q : List Nat} {id : ArrayId} :
    ∀ {t : Tree} {v : Value} {lo hi : Nat}, t.Row h v lo hi →
    v.follow h p = some (.array id) → v.follow h q = some (.array id) → p = q
  | leaf _, _, _, _, hleaf, hp, _ => by
    obtain ⟨hlo, hhi⟩ := Row.mem_range hleaf hp
    obtain ⟨-, -, rfl⟩ := hleaf
    exact absurd hhi (Nat.not_lt.mpr hlo)
  | array _, _, _, _, ⟨_, rfl, rfl, _, hall⟩, hp, hq => by
    cases p with
    | nil =>
      rw [Value.follow_nil] at hp
      cases hp
      cases q with
      | nil => rfl
      | cons l q => exact absurd hq hall.follow_ne
    | cons k p =>
      cases q with
      | nil =>
        rw [Value.follow_nil] at hq
        cases hq
        exact absurd hp hall.follow_ne
      | cons l q =>
        obtain ⟨_, w, hid, hw, hp⟩ := Value.follow_cons_eq_some hp
        cases hid
        obtain ⟨_, u, hid, hu, hq⟩ := Value.follow_cons_eq_some hq
        cases hid
        rw [← Array.getElem?_toList] at hw hu
        obtain ⟨rfl, rfl⟩ := EachRow.path_unique hp hq hall hw hu
        rfl

theorem EachRow.path_unique {v w : Value} {p q : List Nat} {id : ArrayId}
    (hp : v.follow h p = some (.array id)) (hq : w.follow h q = some (.array id)) :
    ∀ {ts : List Tree} {vs : List Value} {lo hi k l : Nat}, EachRow h ts vs lo hi →
    vs[k]? = some v → vs[l]? = some w → k = l ∧ p = q
  | [], [], _, _, _, _, _, hk, _ => by simp at hk
  | _ :: _, _ :: _, _, _, k, l, ⟨_, ht, hts⟩, hk, hl => by
    cases k with
    | zero =>
      cases hk
      cases l with
      | zero =>
        cases hl
        exact ⟨rfl, Row.path_unique ht hp hq⟩
      | succ l => exact absurd (ht.mem_range hp).2 (Nat.not_lt.mpr (hts.mem_range hl hq).1)
    | succ k =>
      cases l with
      | zero =>
        cases hl
        exact absurd (ht.mem_range hq).2 (Nat.not_lt.mpr (hts.mem_range hk hp).1)
      | succ l =>
        obtain ⟨hkl, hpq⟩ := EachRow.path_unique hp hq hts hk hl
        exact ⟨congrArg (· + 1) hkl, hpq⟩

end

/-! ## What a tree has at its places -/

/-- The part of a tree at a place. -/
def part? : Tree → List Nat → Option Tree
  | t, [] => some t
  | array elements, k :: ks => (elements[k]?).bind (part? · ks)
  | leaf _, _ :: _ => none

/-- What can be seen of a tree without a look at its parts. -/
def face : Tree → Nat ⊕ Value
  | leaf v => .inr v
  | array elements => .inl elements.length

@[simp] theorem part?_nil (t : Tree) : t.part? [] = some t := by cases t <;> rfl

theorem EachOf.getElem? : ∀ {ts : List Tree} {vs : List Value} (k : Nat), EachOf h ts vs →
    (ts[k]? = none ∧ vs[k]? = none) ∨ ∃ t v, ts[k]? = some t ∧ vs[k]? = some v ∧ t.Of h v
  | [], [], _, _ => .inl ⟨rfl, rfl⟩
  | t :: _, v :: _, 0, ⟨ht, _⟩ => .inr ⟨t, v, rfl, rfl, ht⟩
  | _ :: _, _ :: _, k + 1, ⟨_, hts⟩ => EachOf.getElem? k hts

theorem Of.face_eq {t : Tree} {v : Value} (ht : t.Of h v) : v.face h = t.face := by
  cases t with
  | leaf u =>
    obtain ⟨rfl, hkind⟩ := ht
    cases v with
    | array id => exact absurd rfl hkind
    | _ => rfl
  | array elements =>
    obtain ⟨id, rfl, -, hall⟩ := ht
    rw [Value.face, face, ← hall.length_eq, Array.length_toList]

/-- At every place a value has what its tree has there. -/
theorem Of.face_follow {path : List Nat} {t : Tree} {v : Value} (ht : t.Of h v) :
    (v.follow h path).map (Value.face h) = (t.part? path).map face := by
  induction path generalizing t v with
  | nil => simpa using ht.face_eq
  | cons k ks ih =>
    cases t with
    | leaf u =>
      obtain ⟨rfl, hkind⟩ := ht
      cases v with
      | array id => exact absurd rfl hkind
      | _ => rfl
    | array elements =>
      obtain ⟨id, rfl, -, hall⟩ := ht
      rcases hall.getElem? k with ⟨hnone, hnone'⟩ | ⟨t, v, ht, hv, hof⟩
      · rw [Array.getElem?_toList] at hnone'
        simp [Value.follow, part?, hnone, hnone']
      · rw [Array.getElem?_toList] at hv
        rw [Value.follow_of_getElem? hv, part?, ht, Option.bind_some, ih hof]

/-! ## Copies stand in a row -/

/-- A new array ends the row of its elements. -/
theorem EachRow.newArray {ts : List Tree} {vs : List Value} (hrow : EachRow h ts vs lo h.size) :
    (array ts).Row (h.extend #[vs.toArray]) (.array h.size) lo (h.size + 1) := by
  refine ⟨h.size, rfl, rfl, by simp, ?_⟩
  rw [Heap.get_extend_size]
  exact hrow.extend _

theorem EachRow.newArrayIn {ts : List Tree} {vs ws : List Value} {f : Value → Value.Copying Value}
    {fresh new : Array (Array Value)} (hws : vs.mapM f fresh = (ws, fresh ++ new))
    (hrow : EachRow (h.extend (fresh ++ new)) ts ws lo (h.size + fresh.size + new.size)) :
    ∃ w more, (do Value.newArrayIn h (← vs.mapM f)) fresh = (w, fresh ++ more) ∧
      (array ts).Row (h.extend (fresh ++ more)) w lo (h.size + fresh.size + more.size) := by
  have hsize : (h.extend (fresh ++ new)).size = h.size + fresh.size + new.size := by
    rw [Heap.size_extend, Array.size_append, Nat.add_assoc]
  rw [← hsize] at hrow
  have hnew := hrow.newArray
  rw [Heap.extend_extend, Array.append_assoc, hsize, Nat.add_assoc _ _ 1] at hnew
  refine ⟨_, new ++ #[ws.toArray], ?_, by rwa [Array.size_append]⟩
  simp only [bind, StateT.bind, hws, Value.newArrayIn, Array.push_eq_append, Array.append_assoc,
    Array.size_append, ← Nat.add_assoc]

mutual

/-- The copy of a value that stands for a tree stands for it too, and its
arrays are a row after those made before. -/
theorem Of.copyWithin_row : ∀ {t : Tree} {v : Value} {depth : Nat}, t.Of h v → t.height ≤ depth →
    ∀ fresh, ∃ w new, Value.copyWithin h depth v fresh = (w, fresh ++ new) ∧
      t.Row (h.extend (fresh ++ new)) w (h.size + fresh.size) (h.size + fresh.size + new.size)
  | leaf v, _, depth, ⟨rfl, hkind⟩, _, fresh => by
    refine ⟨_, #[], ?_, rfl, hkind, rfl⟩
    rw [Array.append_empty]
    cases v with
    | array id => exact absurd rfl hkind
    | _ => cases depth <;> rfl
  | array ts, _, 0, _, hheight, _ => absurd hheight (Nat.not_succ_le_zero _)
  | array ts, _, depth + 1, ⟨id, rfl, _, hall⟩, hheight, fresh => by
    obtain ⟨ws, new, hws, hrow⟩ := EachOf.mapM_row hall (Nat.le_of_succ_le_succ hheight) fresh
    exact hrow.newArrayIn hws

theorem EachOf.mapM_row : ∀ {ts : List Tree} {vs : List Value} {depth : Nat}, EachOf h ts vs →
    heightAll ts ≤ depth → ∀ fresh,
    ∃ ws new, vs.mapM (Value.copyWithin h depth) fresh = (ws, fresh ++ new) ∧
      EachRow (h.extend (fresh ++ new)) ts ws (h.size + fresh.size)
        (h.size + fresh.size + new.size)
  | [], [], _, _, _, fresh => ⟨[], #[], by rw [Array.append_empty]; rfl, rfl⟩
  | t :: ts, v :: vs, depth, ⟨ht, hts⟩, hheight, fresh => by
    obtain ⟨w, new, hw, hrow⟩ := Of.copyWithin_row ht (le_of_max_le_left hheight) fresh
    obtain ⟨ws, more, hws, hrows⟩ := EachOf.mapM_row hts (le_of_max_le_right hheight) (fresh ++ new)
    rw [Array.append_assoc] at hws hrows
    rw [Array.size_append, ← Nat.add_assoc] at hrows
    refine ⟨w :: ws, new ++ more, ?_, h.size + fresh.size + new.size, ?_, ?_⟩
    · simp only [List.mapM_cons, bind, StateT.bind, hw, hws]
      rfl
    · have hrow' := hrow.extend more
      rwa [Heap.extend_extend, Array.append_assoc] at hrow'
    · rwa [Array.size_append, ← Nat.add_assoc]

end

theorem EachOf.append : ∀ {ts us : List Tree} {vs ws : List Value}, EachOf h ts vs →
    EachOf h us ws → EachOf h (ts ++ us) (vs ++ ws)
  | [], _, [], _, _, hus => hus
  | _ :: _, _, _ :: _, _, ⟨ht, hts⟩, hus => ⟨ht, hts.append hus⟩

theorem heightAll_append (ts us : List Tree) :
    heightAll (ts ++ us) = max (heightAll ts) (heightAll us) := by
  induction ts with
  | nil => simp [heightAll]
  | cons t ts ih => rw [List.cons_append, heightAll, heightAll, ih, max_assoc]

theorem heightAll_replicate (ts : List Tree) (n : Nat) :
    heightAll (List.replicate n ts).flatten ≤ heightAll ts := by
  induction n with
  | zero => exact Nat.zero_le _
  | succ n ih =>
    rw [List.replicate_succ, List.flatten_cons, heightAll_append]
    exact max_le le_rfl ih

/-- One list of trees so many times over. -/
theorem EachOf.replicate {ts : List Tree} {vs : List Value} (hall : EachOf h ts vs) (n : Nat) :
    EachOf h (List.replicate n ts).flatten (List.replicate n vs).flatten := by
  induction n with
  | zero => trivial
  | succ n ih =>
    rw [List.replicate_succ, List.replicate_succ, List.flatten_cons, List.flatten_cons]
    exact hall.append ih

end Tree

/-! ## Later stores -/

/-- The stores that come after another one, where nothing is overwritten but
elements in the slots `P`. -/
inductive Heap.Later (P : Slot → Prop) (h : Heap) : Heap → Prop
  | now : Later P h h
  | made {h' : Heap} (fresh : Array (Array Value)) : Later P h h' → Later P h (h'.extend fresh)
  | declared {h' : Heap} : Later P h h' → Later P h h'.countFunction
  | updated {h' : Heap} {a i : Value} {slot : Slot} (v : Value) : Later P h h' →
      Value.slot h' a i = .ok slot → P slot → Later P h (h'.write slot v)

namespace Heap.Later

variable {P : Slot → Prop} {h h' : Heap} {id : ArrayId}

theorem size_le (hl : h.Later P h') : h.size ≤ h'.size := by
  induction hl with
  | now => exact le_rfl
  | made fresh _ ih => exact ih.trans (by simp)
  | declared _ ih => exact ih
  | updated v _ _ _ ih => exact ih.trans (by simp)

/-- A slot that is none of those is as it was. -/
theorem getElem?_eq (hl : h.Later P h') (hid : id < h.size) {k : Nat} (hk : ¬ P ⟨id, k⟩) :
    (h'.get id)[k]? = (h.get id)[k]? := by
  induction hl with
  | now => rfl
  | made fresh hl ih => rw [get_extend_of_lt fresh (hid.trans_le hl.size_le), ih]
  | declared _ ih => exact ih
  | @updated h' a i slot v hl _ hslot ih =>
    by_cases hother : id = slot.array
    · subst hother
      have hindex : slot.index ≠ k := by
        rintro rfl
        exact hk hslot
      rw [get_write_self (hid.trans_le hl.size_le), Array.getElem?_setIfInBounds_ne hindex, ih]
    · rw [get_write_of_ne slot.index v hother, ih]

theorem get_eq (hl : h.Later P h') (hid : id < h.size) (hnot : ∀ k, ¬ P ⟨id, k⟩) :
    h'.get id = h.get id := Array.ext_getElem? fun k => hl.getElem?_eq hid (hnot k)

end Heap.Later

/-! ## Values that share nothing -/

/-- The value that was made shares nothing with those of the store `h` before,
which has not changed, nor with itself: its arrays are new and each lies at
one place. So the older values stay as they are as long as only new arrays
are written to, and the new value as long as none of its own are. -/
structure Made.Separate (h : Heap) (m : Made) : Prop where
  unchanged : ∀ id < h.size, (h.extend m.fresh).get id = h.get id
  fresh : ∀ id, m.value.Reaches (h.extend m.fresh) (.array id) →
    h.size ≤ id ∧ id < (h.extend m.fresh).size
  once : ∀ id, m.value.Reaches (h.extend m.fresh) (.array id) →
    ∃! path, m.value.follow (h.extend m.fresh) path = some (.array id)
  olderKept : ∀ later, (h.extend m.fresh).Later (fun slot => h.size ≤ slot.array) later →
    ∀ u : Value, u.Stored h → ∀ path, u.follow later path = u.follow h path
  kept : ∀ later, (h.extend m.fresh).Later
      (fun slot => ¬ m.value.Reaches (h.extend m.fresh) (.array slot.array)) later →
    ∀ path, m.value.follow later path = m.value.follow (h.extend m.fresh) path

/-- At every place the value that was made has what `v` had there in the
store `h` before. -/
def Made.Mirrors (h : Heap) (v : Value) (m : Made) : Prop :=
  ∀ path, (m.value.follow (h.extend m.fresh) path).map (Value.face (h.extend m.fresh)) =
    (v.follow h path).map (Value.face h)

theorem Tree.Row.separate {h : Heap} {m : Made} {t : Tree}
    (ht : t.Row (h.extend m.fresh) m.value h.size (h.extend m.fresh).size) : m.Separate h := by
  have hfresh : ∀ id, m.value.Reaches (h.extend m.fresh) (.array id) →
      h.size ≤ id ∧ id < (h.extend m.fresh).size := by
    intro id hid
    obtain ⟨path, hpath⟩ := Value.exists_follow hid
    exact ht.mem_range hpath
  refine ⟨fun id => Heap.get_extend_of_lt m.fresh, hfresh, ?_, ?_, ?_⟩
  · intro id hid
    obtain ⟨path, hpath⟩ := Value.exists_follow hid
    exact ⟨path, hpath, fun other hother => ht.path_unique hother hpath⟩
  · intro later hlater u hu path
    refine Value.follow_congr fun id hid => ?_
    have hold : id < h.size := hu id hid
    rw [hlater.get_eq (hold.trans_le (by simp)) fun _ => Nat.not_le.mpr hold,
      Heap.get_extend_of_lt m.fresh hold]
  · intro later hlater path
    exact Value.follow_congr fun id hid => hlater.get_eq (hfresh id hid).2 fun _ hk => hk hid

/-! ## Copies one after the other -/

/-- The slot belongs to the copy with number `j` of those of some length that
the array `v` consists of: it holds an element of the copy, or is one of an
array inside such an element. -/
def Value.InCopy (h : Heap) (v : Value) (length j : Nat) (slot : Slot) : Prop :=
  ∃ i < length, (v = .array slot.array ∧ slot.index = j * length + i) ∨
    ∃ path, v.follow h ((j * length + i) :: path) = some (.array slot.array)

/-- The value that was made is an array of `n` copies of the elements that
the array had in the store `h` before. No slot belongs to two of the copies,
and a copy stays as it is as long as none of its own slots is written to. -/
structure Made.Repeats (h : Heap) (id : ArrayId) (n : Nat) (m : Made) : Prop where
  length : m.value.face (h.extend m.fresh) = .inl (n * (h.get id).size)
  mirrors : ∀ j < n, ∀ i < (h.get id).size, ∀ path,
    (m.value.follow (h.extend m.fresh) ((j * (h.get id).size + i) :: path)).map
      (Value.face (h.extend m.fresh)) = ((Value.array id).follow h (i :: path)).map (Value.face h)
  apart : ∀ j j', j ≠ j' → ∀ slot, m.value.InCopy (h.extend m.fresh) (h.get id).size j slot →
    ¬ m.value.InCopy (h.extend m.fresh) (h.get id).size j' slot
  copyKept : ∀ j later, (h.extend m.fresh).Later
      (fun slot => ¬ m.value.InCopy (h.extend m.fresh) (h.get id).size j slot) later →
    ∀ i < (h.get id).size, ∀ path,
      m.value.follow later ((j * (h.get id).size + i) :: path) =
        m.value.follow (h.extend m.fresh) ((j * (h.get id).size + i) :: path)

theorem copy_index_ne {length j j' i i' : Nat} (hj : j ≠ j') (hi : i < length)
    (hi' : i' < length) : j * length + i ≠ j' * length + i' := by
  intro heq
  rcases Nat.lt_or_gt_of_ne hj with hlt | hgt
  · have := Nat.mul_le_mul_right length (Nat.succ_le_of_lt hlt)
    rw [Nat.succ_mul] at this
    omega
  · have := Nat.mul_le_mul_right length (Nat.succ_le_of_lt hgt)
    rw [Nat.succ_mul] at this
    omega

section Copies

variable {h later : Heap} {v : Value} {length j j' : Nat}

/-- In a row no slot belongs to two copies, since no array lies at two
places. -/
theorem Tree.Row.not_inCopy {t : Tree} {lo hi : Nat} (ht : t.Row h v lo hi) (hj : j ≠ j')
    {slot : Slot} (hslot : v.InCopy h length j slot) : ¬ v.InCopy h length j' slot := by
  obtain ⟨i, hi, hin⟩ := hslot
  rintro ⟨i', hi', hin'⟩
  have hne := copy_index_ne hj hi hi'
  rcases hin with ⟨rfl, hindex⟩ | ⟨path, hpath⟩
  · rcases hin' with ⟨-, hindex'⟩ | ⟨path', hpath'⟩
    · exact hne (hindex.symm.trans hindex')
    · cases ht.path_unique hpath' (Value.follow_nil h _)
  · rcases hin' with ⟨rfl, -⟩ | ⟨path', hpath'⟩
    · cases ht.path_unique hpath (Value.follow_nil h _)
    · exact hne (List.cons.inj (ht.path_unique hpath hpath')).1

/-- A copy is as it was if nothing was written to its slots. -/
theorem Tree.Row.follow_copy {t : Tree} {lo hi : Nat} (ht : t.Row h v lo hi) (hhi : hi ≤ h.size)
    (hlater : h.Later (fun slot => ¬ v.InCopy h length j slot) later) {i : Nat}
    (hi : i < length) (path : List Nat) :
    v.follow later ((j * length + i) :: path) = v.follow h ((j * length + i) :: path) := by
  cases v with
  | array root =>
    have hroot := (ht.mem_range (Value.follow_nil h _)).2.trans_le hhi
    rw [Value.follow, Value.follow,
      hlater.getElem?_eq hroot fun hnot => hnot ⟨i, hi, .inl ⟨rfl, rfl⟩⟩]
    refine Option.bind_congr fun w hw => Value.follow_congr fun a ha => ?_
    obtain ⟨q, hq⟩ := Value.exists_follow ha
    rw [← Value.follow_of_getElem? hw] at hq
    exact hlater.get_eq ((ht.mem_range hq).2.trans_le hhi) fun _ hnot =>
      hnot ⟨i, hi, .inr ⟨q, hq⟩⟩
  | _ => rfl

end Copies

/-! ## The three ways to copy -/

namespace Value

variable {h : Heap} {v : Value} {id : ArrayId} {n : Int64} {m : Made}

theorem made_eq {c : Copying Value} {w : Value} {new : Array (Array Value)}
    (hc : c #[] = (w, #[] ++ new)) : made c = ⟨w, new⟩ := by
  simp only [made, StateT.run, hc, Array.empty_append]

theorem duplicate_row {t : Tree} (ht : t.Of h v) (hheight : t.height ≤ h.size) :
    t.Row (h.extend (duplicate h v).fresh) (duplicate h v).value h.size
      (h.extend (duplicate h v).fresh).size := by
  obtain ⟨w, new, hcopy, hrow⟩ := ht.copyWithin_row hheight #[]
  have hmade : duplicate h v = ⟨w, new⟩ := made_eq hcopy
  rw [hmade, Heap.size_extend]
  simpa using hrow

theorem copies_row {ts : List Tree} {elements : List Value} (hall : Tree.EachOf h ts elements)
    (hheight : Tree.heightAll ts ≤ h.size) (n : Nat) :
    (Tree.array (List.replicate n ts).flatten).Row (h.extend (copies h elements n).fresh)
      (copies h elements n).value h.size (h.extend (copies h elements n).fresh).size := by
  obtain ⟨ws, new, hws, hrows⟩ := (hall.replicate n).mapM_row
    ((Tree.heightAll_replicate ts n).trans hheight) #[]
  obtain ⟨w, more, hcopy, hrow⟩ := hrows.newArrayIn hws
  have hmade : copies h elements n = ⟨w, more⟩ := made_eq hcopy
  rw [hmade, Heap.size_extend]
  simpa using hrow

theorem cast_array_eq_ok_iff :
    cast h v .array = .ok m ↔ v.kind = .array ∧ m = duplicate h v := by
  cases v with
  | array id => simp [cast, kind, pure, Except.pure, eq_comm]
  | _ => simp [cast, kind]

/-- An array is repeated unless the count is negative or the result would be
too long. -/
theorem multiply_array_eq_ok_iff : multiply h (.array id) (.int n) = .ok m ↔
    (0 ≤ n.toInt ∧ (h.get id).size * n.toInt.toNat ≤ maxRepeated) ∧
      m = copies h (h.get id).toList n.toInt.toNat := by
  rw [multiply_array, map_repetitions_eq_ok_iff]

theorem copies_repeats {ts : List Tree} (hall : Tree.EachOf h ts (h.get id).toList)
    (hid : id < h.size) (hheight : Tree.heightAll ts ≤ h.size) (n : Nat) :
    (copies h (h.get id).toList n).Repeats h id n := by
  have hrow := copies_row hall hheight n
  have hlength : ts.length = (h.get id).size := by rw [← hall.length_eq, Array.length_toList]
  have hof : (Tree.array ts).Of h (.array id) := ⟨id, rfl, hid, hall⟩
  refine ⟨?_, fun j hj i hi path => ?_, fun j j' hj slot => hrow.not_inCopy hj,
    fun j later hlater i hi path => hrow.follow_copy le_rfl hlater hi path⟩
  · rw [hrow.of.face_eq, Tree.face, List.length_flatten, List.map_replicate, List.sum_replicate,
      smul_eq_mul, hlength]
  · rw [hrow.of.face_follow, hof.face_follow, ← hlength, Tree.part?, Tree.part?,
      getElem?_flatten_replicate hj (hlength ▸ hi)]

end Value

/-- Copies share nothing, whatever is shared in the value that is copied, if
no array lies inside itself there. The deep copy, the cast of an array to an
array, which is the deep copy, and the repetition of an array change no array
that is there, and every array inside the result is new and lies at one place
only, also across the repeated copies. At all places the result has what the
value has. So whatever is later done through the arrays of the result is seen
in no older value, nor in another of the repeated copies, and nothing that is
done through older arrays is seen in the result. -/
theorem deep_copies_separate {h : Heap} {v : Value} (hacyclic : v.Acyclic h)
    (hstored : v.Stored h) :
    ((Value.duplicate h v).Separate h ∧ (Value.duplicate h v).Mirrors h v) ∧
    (∀ m, Value.cast h v .array = .ok m ↔ v.kind = .array ∧ m = Value.duplicate h v) ∧
    ∀ id n, v = .array id →
      ((∃ m, Value.multiply h v (.int n) = .ok m) ↔
        0 ≤ n.toInt ∧ (h.get id).size * n.toInt.toNat ≤ Value.maxRepeated) ∧
      ∀ m, Value.multiply h v (.int n) = .ok m → m.Separate h ∧ m.Repeats h id n.toInt.toNat := by
  obtain ⟨t, ht, hheight⟩ := Tree.exists_tree hacyclic hstored
  have hcopy := Value.duplicate_row ht hheight
  refine ⟨⟨hcopy.separate, fun path => ?_⟩, fun m => Value.cast_array_eq_ok_iff, ?_⟩
  · rw [hcopy.of.face_follow, ht.face_follow]
  · rintro id n rfl
    refine ⟨?_, fun m hm => ?_⟩
    · simp [Value.multiply_array_eq_ok_iff]
    · obtain ⟨-, rfl⟩ := Value.multiply_array_eq_ok_iff.mp hm
      cases t with
      | leaf u =>
        obtain ⟨rfl, hkind⟩ := ht
        exact absurd rfl hkind
      | array ts =>
        obtain ⟨_, hself, hid, hall⟩ := ht
        cases hself
        have hheights : Tree.heightAll ts ≤ h.size := (Nat.le_succ _).trans hheight
        exact ⟨(Value.copies_row hall hheights _).separate,
          Value.copies_repeats hall hid hheights _⟩

/-- An array that holds another one twice, and two of it one after the other:
the copies share none of their four inner arrays. -/
theorem deep_copies_separate_shared :
    let h : Heap := ⟨#[#[.int 1], #[.array 0, .array 0]], 0⟩
    let one : Made := ⟨.array 4, #[#[.int 1], #[.int 1], #[.array 2, .array 3]]⟩
    let two : Made := ⟨.array 6, #[#[.int 1], #[.int 1], #[.int 1], #[.int 1],
      #[.array 2, .array 3, .array 4, .array 5]]⟩
    (Value.array 1).Acyclic h ∧ (Value.array 1).Stored h ∧
    Value.cast h (.array 1) .array = .ok one ∧ one.Separate h ∧ one.Mirrors h (.array 1) ∧
    Value.multiply h (.array 1) (.int 2) = .ok two ∧ two.Separate h ∧ two.Repeats h 1 2 := by
  intro h one two
  have helement : ∀ id k, Value.array k ∈ h.get id → k = 0 ∧ id = 1 := by
    intro id k hk
    rcases id with _ | _ | id
    · simp [h, Heap.get] at hk
    · simpa [h, Heap.get] using hk
    · simp [h, Heap.get] at hk
  have hacyclic : (Value.array 1).Acyclic h := by
    refine Value.acyclic_of_older (fun id k hk => ?_) _
    obtain ⟨rfl, rfl⟩ := helement id k hk
    exact Nat.one_pos
  have hstored : (Value.array 1).Stored h := by
    intro id hid
    rcases Relation.ReflTransGen.cases_tail hid with hself | ⟨_, -, _, -, hmem⟩
    · cases hself
      decide
    · obtain ⟨rfl, -⟩ := helement _ _ hmem
      decide
  obtain ⟨⟨hseparate, hmirrors⟩, hcast, hrepeat⟩ := deep_copies_separate hacyclic hstored
  have hone : Value.duplicate h (.array 1) = one := by rfl
  have htwo : Value.multiply h (.array 1) (.int 2) = .ok two :=
    Value.multiply_array_eq_ok_iff.mpr ⟨by decide, by rfl⟩
  rw [hone] at hseparate hmirrors hcast
  obtain ⟨hapart, hrepeats⟩ := (hrepeat 1 2 rfl).2 two htwo
  exact ⟨hacyclic, hstored, (hcast one).mpr ⟨rfl, rfl⟩, hseparate, hmirrors, htwo, hapart,
    hrepeats⟩

end Quill
