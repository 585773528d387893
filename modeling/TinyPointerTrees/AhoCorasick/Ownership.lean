import TinyPointerTrees.AhoCorasick.Deletion
import TinyPointerTrees.AhoCorasick.Search

/-!
# Objects of class `Automaton`

An object has a pointer to the root of its automaton, or a null pointer after it has
been moved from. `Objects.run` is what a program does with such objects: `Create`,
the constructor and the assignment that move, the destructor, and `Search`. Nothing
is the answer to what is undefined: a node that is read or deleted again after it was
deleted, a null pointer that is dereferenced, an object that does not exist.

`Values` is what an object is to a program, a list of words or nothing.
`objects_are_values`: every run in which no object is used before it is constructed or
after it is destroyed, and none that was moved from is searched, is defined; each search
reports the occurrences of the words that the object has as a value, and the nodes of
an automaton are deleted, each once, when no object has it any more.
-/

namespace TinyPointerTrees.AhoCorasick

open Automaton

/-- The objects of a program, by their addresses, and what they have allocated. -/
structure Objects where
  /-- What `Create` has made. -/
  made : List Automaton
  /-- The nodes of each that have been deleted. -/
  deleted : ℕ → List ℕ
  /-- The objects that exist, with `root`: which automaton it is the root of. -/
  root : ℕ → Option (Option ℕ)

/-- What a program does with objects. -/
inductive ObjectCall where
  /-- `Automaton x = Automaton::Create(words)`. -/
  | create (x : ℕ) (words : List (List UInt8))
  /-- `Automaton x(std::move(other))`. -/
  | moveConstruct (x other : ℕ)
  /-- `x = std::move(other)`. -/
  | moveAssign (x other : ℕ)
  /-- `~Automaton()`. -/
  | destroy (x : ℕ)
  /-- `x.Search(text)`. -/
  | search (x : ℕ) (text : List UInt8)

namespace Objects

/-- No object has been constructed. -/
def start : Objects := ⟨[], fun _ => [], fun _ => none⟩

/-- `if (root != nullptr) { root->deleteChildren(); delete root; }`. -/
def release (fuel : ℕ) (O : Objects) : Option ℕ → Option Objects
  | none => some O
  | some r => do
    let A ← O.made[r]?
    let deleted ← A.destroy fuel (O.deleted r)
    return { O with deleted := Function.update O.deleted r deleted }

/-- One call, with the matches of a search. -/
def run (fuel : ℕ) (O : Objects) : ObjectCall → Option (List Match × Objects)
  | .create x words =>
    match O.root x with
    | some _ => none
    | none => do
      let A ← create fuel words
      return ([], { O with
        made := O.made ++ [A]
        root := Function.update O.root x (some (some O.made.length)) })
  | .moveConstruct x other =>
    match O.root x, O.root other with
    | none, some root =>
      some ([], { O with
        root := Function.update (Function.update O.root x (some root)) other (some none) })
    | _, _ => none
  | .moveAssign x other =>
    match O.root x, O.root other with
    | some root, some root' =>
      if x = other then some ([], O)
      else do
        let O ← O.release fuel root
        return ([], { O with
          root := Function.update (Function.update O.root x (some root')) other (some none) })
    | _, _ => none
  | .destroy x =>
    match O.root x with
    | none => none
    | some root => do
      let O ← O.release fuel root
      return ([], { O with root := Function.update O.root x none })
  | .search x text =>
    match O.root x with
    | none => none
    -- the root is not read before there is a character
    | some none => if text = [] then some ([], O) else none
    | some (some r) => do
      let A ← O.made[r]?
      if O.deleted r = [] then (A.search fuel text).map (·, O) else none

/-- One call after the other. -/
def runs (fuel : ℕ) (O : Objects) : List ObjectCall → Option (List (List Match) × Objects)
  | [] => some ([], O)
  | call :: calls => do
    let (matched, O) ← O.run fuel call
    let (rest, O) ← O.runs fuel calls
    return (matched :: rest, O)

end Objects

/-! ### Values -/

/-- What the objects that exist are: words, or nothing when they have been moved from. -/
abbrev Values := ℕ → Option (Option (List (List UInt8)))

/-- The matches of the words in a text, in their order. -/
def Reports (words : List (List UInt8)) (text : List UInt8) (l : List Match) : Prop :=
  l.Pairwise Match.Before ∧
    ∀ m, m ∈ l ↔ ∃ i < text.length, ∃ w ∈ words, w <:+ text.take (i + 1) ∧
    m = ⟨i + 1 - w.length, i, w⟩

namespace Values

variable (V : Values)

/-- Objects are constructed once before they are used and destroyed, and not searched when they have
been moved from. The lengths of words fit into an `int32_t`. -/
def Allows : ObjectCall → Prop
  | .create x words => V x = none ∧ (∀ w ∈ words, w.length < 2 ^ 31)
  | .moveConstruct x other => V x = none ∧ V other ≠ none
  | .moveAssign x other => V x ≠ none ∧ V other ≠ none
  | .destroy x => V x ≠ none
  | .search x _ => ∃ words, V x = some (some words)

/-- The values after a call. -/
def effect : ObjectCall → Values
  | .create x words => Function.update V x (some (some words))
  | .moveConstruct x other => Function.update (Function.update V x (V other)) other (some none)
  | .moveAssign x other =>
    if x = other then V else Function.update (Function.update V x (V other)) other (some none)
  | .destroy x => Function.update V x none
  | .search _ _ => V

/-- What a call answers. -/
def Answers : ObjectCall → List Match → Prop
  | .search x text, l => ∃ words, V x = some (some words) ∧ Reports words text l
  | _, l => l = []

/-- Every call is allowed when it is made. -/
def AllowsAll : Values → List ObjectCall → Prop
  | _, [] => True
  | V, call :: calls => V.Allows call ∧ AllowsAll (V.effect call) calls

/-- Every call is answered. -/
def AnswersAll : Values → List ObjectCall → List (List Match) → Prop
  | _, [], [] => True
  | V, call :: calls, l :: ls => V.Answers call l ∧ AnswersAll (V.effect call) calls ls
  | _, _, _ => False

end Values

/-! ### One call -/

section Run

variable {fuel : ℕ} {words : List (List UInt8)} {A : Automaton} {V : Values} {O : Objects}
  {x other : ℕ}

/-- The automaton of some words, small enough for the loops to end. -/
def OfWords (fuel : ℕ) (words : List (List UInt8)) (A : Automaton) : Prop :=
  A.size ≤ fuel ∧ ∃ label, Built A.size label words.reverse A

theorem exists_create (hw : ∀ w ∈ words, w.length < 2 ^ 31)
    (hfuel : (words.map List.length).sum < fuel) :
    ∃ A, create fuel words = some A ∧ OfWords fuel words A := by
  obtain ⟨A, n, label, hcreate, hn, hbuilt⟩ := create_built hw hfuel
  obtain rfl := hbuilt.shape.size
  exact ⟨A, hcreate, hn, label, hbuilt⟩

theorem OfWords.search (h : OfWords fuel words A) (text : List UInt8) :
    ∃ l, A.search fuel text = some l ∧ Reports words text l := by
  obtain ⟨hfuel, label, hbuilt⟩ := h
  have hnear : SuffixLinks.nearest (· ∈ paths A.size label) (text.take 0) = some (label 0) := by
    rw [List.take_zero, hbuilt.shape.root]
    exact SuffixLinks.nearest_of_mem hbuilt.shape.nil_mem
  have hrun := searchFrom_spec hbuilt hbuilt.shape.pos (Nat.zero_add _) rfl hnear
    fun i hi => (length_lt_size hbuilt.shape hi).trans_le hfuel
  refine ⟨_, hrun, pairwise_occurrences List.pairwise_lt_range', fun m => ?_⟩
  simp only [List.mem_flatMap, List.mem_range'_1, mem_occurrencesAt, List.mem_reverse, Nat.zero_le,
    true_and, Nat.zero_add]

/-- What an object is, and its `root`. -/
inductive Has (fuel : ℕ) (made : List Automaton) (deleted : ℕ → List ℕ) :
    Option (Option (List (List UInt8))) → Option (Option ℕ) → Prop where
  /-- There is no object. -/
  | nothing : Has fuel made deleted none none
  /-- It has been moved from. -/
  | moved : Has fuel made deleted (some none) (some none)
  /-- It has an automaton, which is there. -/
  | automaton {words : List (List UInt8)} {r : ℕ} {A : Automaton} : made[r]? = some A →
      OfWords fuel words A → deleted r = [] →
      Has fuel made deleted (some (some words)) (some (some r))

/-- The objects are these values, no two have the same automaton, and of those that no object has
the nodes have been deleted. -/
structure Owned (fuel : ℕ) (V : Values) (made : List Automaton) (deleted : ℕ → List ℕ)
    (root : ℕ → Option (Option ℕ)) : Prop where
  has : ∀ x, Has fuel made deleted (V x) (root x)
  unique : ∀ {x y r}, root x = some (some r) → root y = some (some r) → x = y
  freed : ∀ {r A}, made[r]? = some A → (∀ x, root x ≠ some (some r)) →
    (deleted r).Nodup ∧ ∀ i, i ∈ deleted r ↔ i < A.size
  fresh : ∀ r ≥ made.length, deleted r = []

variable {made : List Automaton} {deleted : ℕ → List ℕ} {root : ℕ → Option (Option ℕ)}
  {x other r : ℕ} {p : Option ℕ}

theorem Has.lt_length (h : Has fuel made deleted (V x) (some (some r))) : r < made.length := by
  generalize V x = v at h
  cases h with
  | automaton hr _ _ => exact (List.getElem?_eq_some_iff.mp hr).1

/-- What an object is depends on its own automaton. -/
theorem Has.congr {made' : List Automaton} {deleted' : ℕ → List ℕ}
    {v : Option (Option (List (List UInt8)))} {q : Option (Option ℕ)}
    (h : Has fuel made deleted v q)
    (hmade : ∀ r A, q = some (some r) → made[r]? = some A → made'[r]? = some A)
    (hdeleted : ∀ r, q = some (some r) → deleted' r = deleted r) : Has fuel made' deleted' v q := by
  cases h with
  | nothing => exact .nothing
  | moved => exact .moved
  | automaton hr hA hd => exact .automaton (hmade _ _ rfl hr) hA ((hdeleted _ rfl).trans hd)

theorem Has.eq_none_iff (h : Has fuel made deleted (V x) (root x)) :
    V x = none ↔ root x = none := by
  generalize V x = v, root x = q at h
  cases h <;> simp

theorem Owned.create (h : Owned fuel V made deleted root) (hx : root x = none)
    (hA : OfWords fuel words A) :
    Owned fuel (Function.update V x (some (some words))) (made ++ [A]) deleted
      (Function.update root x (some (some made.length))) := by
  have hlt : ∀ {y r}, root y = some (some r) → r < made.length :=
    fun {y r} hy => (hy ▸ h.has y).lt_length
  refine ⟨fun y => ?_, fun {y z r} hy hz => ?_, fun {r B} hr hno => ?_, fun r hr => h.fresh r ?_⟩
  · by_cases hyx : y = x
    · rw [hyx, Function.update_self, Function.update_self]
      exact .automaton List.getElem?_concat_length hA (h.fresh _ le_rfl)
    · rw [Function.update_of_ne hyx, Function.update_of_ne hyx]
      exact (h.has y).congr (fun r B hr hB => by rwa [List.getElem?_append_left (hlt hr)])
        fun _ _ => rfl
  · by_cases hyx : y = x <;> by_cases hzx : z = x
    · rw [hyx, hzx]
    · rw [hyx, Function.update_self, Option.some.injEq, Option.some.injEq] at hy
      rw [Function.update_of_ne hzx, ← hy] at hz
      exact absurd (hlt hz) (lt_irrefl _)
    · rw [hzx, Function.update_self, Option.some.injEq, Option.some.injEq] at hz
      rw [Function.update_of_ne hyx, ← hz] at hy
      exact absurd (hlt hy) (lt_irrefl _)
    · rw [Function.update_of_ne hyx] at hy
      rw [Function.update_of_ne hzx] at hz
      exact h.unique hy hz
  · have hne : r ≠ made.length := by
      rintro rfl
      exact hno x (Function.update_self ..)
    have hlt := (List.getElem?_eq_some_iff.mp hr).1
    rw [List.length_append, List.length_singleton] at hlt
    rw [List.getElem?_append_left (by omega)] at hr
    refine h.freed hr fun y hy => hno y ?_
    rwa [Function.update_of_ne]
    rintro rfl
    cases hx.symm.trans hy
  · rw [List.length_append] at hr
    omega

/-- An object gives up what it has. -/
theorem Owned.release {O : Objects} (h : Owned fuel V O.made O.deleted O.root)
    (hx : O.root x = some p) :
    ∃ deleted, O.release fuel p = some { O with deleted := deleted } ∧
      Owned fuel (Function.update V x none) O.made deleted (Function.update O.root x none) := by
  have hroots : ∀ {y r}, Function.update O.root x none y = some (some r) → y ≠ x ∧
    O.root y = some (some r) := by
    intro y r hy
    have hyx : y ≠ x := by
      rintro rfl
      simp at hy
    exact ⟨hyx, by rwa [Function.update_of_ne hyx] at hy⟩
  have hunique : ∀ {y z r}, Function.update O.root x none y = some (some r) →
      Function.update O.root x none z = some (some r) → y = z :=
      fun hy hz => h.unique (hroots hy).2 (hroots hz).2
  have hhas := h.has x
  rw [hx] at hhas
  generalize V x = v at hhas
  cases hhas with
  | moved =>
    refine ⟨O.deleted, rfl, fun y => ?_, hunique, fun {r B} hr hno => h.freed hr fun y hy =>
      hno y ?_, h.fresh⟩
    · by_cases hyx : y = x
      · rw [hyx, Function.update_self, Function.update_self]
        exact .nothing
      · rw [Function.update_of_ne hyx, Function.update_of_ne hyx]
        exact h.has y
    · rwa [Function.update_of_ne]
      rintro rfl
      cases hy.symm.trans hx
  | @automaton words r A hr hA hd =>
    obtain ⟨hfuel, label, hbuilt⟩ := hA
    obtain ⟨gone, hrun, hnd, hmem⟩ := destroy_spec hbuilt.shape hfuel
    refine ⟨Function.update O.deleted r gone, by simp [Objects.release, hr, hd, hrun],
      fun y => ?_, hunique, fun {q B} hq hno => ?_, fun q hq => ?_⟩
    · by_cases hyx : y = x
      · rw [hyx, Function.update_self, Function.update_self]
        exact .nothing
      · rw [Function.update_of_ne hyx, Function.update_of_ne hyx]
        refine (h.has y).congr (fun _ _ _ hB => hB) fun q hq => Function.update_of_ne ?_ ..
        rintro rfl
        exact hyx (h.unique hq hx)
    · by_cases hqr : q = r
      · subst hqr
        obtain rfl : A = B := Option.some.inj (hr.symm.trans hq)
        rw [Function.update_self]
        exact ⟨hnd, hmem⟩
      · rw [Function.update_of_ne hqr]
        refine h.freed hq fun y hy => hno y ?_
        rwa [Function.update_of_ne]
        rintro rfl
        rw [hx, Option.some.injEq, Option.some.injEq] at hy
        exact hqr hy.symm
    · have hqr : q ≠ r := by
        rintro rfl
        exact absurd (List.getElem?_eq_some_iff.mp hr).1 (not_lt.mpr hq)
      rw [Function.update_of_ne hqr]
      exact h.fresh q hq

/-- What an object has is moved to an object that did not exist. -/
theorem Owned.moveTo (h : Owned fuel V made deleted root) (hx : root x = none)
    (hother : root other = some p) :
    Owned fuel (Function.update (Function.update V x (V other)) other (some none)) made deleted
      (Function.update (Function.update root x (some p)) other (some none)) := by
  have hne : x ≠ other := by
    rintro rfl
    cases hx.symm.trans hother
  -- who has an automaton has had it, or `other` has
  have hfrom : ∀ {y r}, Function.update (Function.update root x (some p)) other
    (some none) y = some (some r) →
      y ≠ other ∧ (y = x ∧ root other = some (some r) ∨ root y = some (some r)) := by
    intro y r hy
    have hyo : y ≠ other := by
      rintro rfl
      simp at hy
    rw [Function.update_of_ne hyo] at hy
    by_cases hyx : y = x
    · rw [hyx, Function.update_self] at hy
      exact ⟨hyo, Or.inl ⟨hyx, hother.trans hy⟩⟩
    · rw [Function.update_of_ne hyx] at hy
      exact ⟨hyo, Or.inr hy⟩
  refine ⟨fun y => ?_, fun {y z r} hy hz => ?_, fun {r B} hr hno =>
    h.freed hr fun y hy => ?_, h.fresh⟩
  · by_cases hyo : y = other
    · rw [hyo, Function.update_self, Function.update_self]
      exact .moved
    rw [Function.update_of_ne hyo, Function.update_of_ne hyo]
    by_cases hyx : y = x
    · rw [hyx, Function.update_self, Function.update_self, ← hother]
      exact h.has other
    · rw [Function.update_of_ne hyx, Function.update_of_ne hyx]
      exact h.has y
  · obtain ⟨hyo, ⟨hyx, hy⟩ | hy⟩ := hfrom hy <;> obtain ⟨hzo, ⟨hzx, hz⟩ | hz⟩ := hfrom hz
    · rw [hyx, hzx]
    · exact absurd (h.unique hz hy) hzo
    · exact absurd (h.unique hy hz) hyo
    · exact h.unique hy hz
  · by_cases hyo : y = other
    · subst hyo
      refine hno x ?_
      rw [Function.update_of_ne hne, Function.update_self, ← hother]
      exact hy
    · refine hno y ?_
      rwa [Function.update_of_ne hyo, Function.update_of_ne]
      rintro rfl
      cases hx.symm.trans hy

/-- One call. -/
theorem Owned.run {O : Objects} {call : ObjectCall} (h : Owned fuel V O.made O.deleted O.root)
    (hcall : V.Allows call)
    (hfuel : ∀ x words, call = .create x words → (words.map List.length).sum < fuel) :
    ∃ l O', O.run fuel call = some (l, O') ∧ V.Answers call l ∧
      Owned fuel (V.effect call) O'.made O'.deleted O'.root := by
  have hexists : ∀ {y}, V y ≠ none → ∃ p, O.root y = some p := fun {y} hy =>
    Option.ne_none_iff_exists'.mp fun hnone => hy ((h.has y).eq_none_iff.mpr hnone)
  cases call with
  | create x words =>
    obtain ⟨hx, hw⟩ := hcall
    have hx := (h.has x).eq_none_iff.mp hx
    obtain ⟨A, hcreate, hA⟩ := exists_create hw (hfuel x words rfl)
    have hrun : O.run fuel (.create x words) =
        some ([], ⟨O.made ++ [A], O.deleted, Function.update O.root x (some (some
        O.made.length))⟩) := by
      simp [Objects.run, hx, hcreate]
    exact ⟨[], _, hrun, rfl, h.create hx hA⟩
  | moveConstruct x other =>
    have hx := (h.has x).eq_none_iff.mp hcall.1
    obtain ⟨p, hother⟩ := hexists hcall.2
    have hrun : O.run fuel (.moveConstruct x other) =
        some ([], ⟨O.made, O.deleted,
        Function.update (Function.update O.root x (some p)) other (some none)⟩) := by
      simp [Objects.run, hx, hother]
    exact ⟨[], _, hrun, rfl, h.moveTo hx hother⟩
  | moveAssign x other =>
    obtain ⟨p, hx⟩ := hexists hcall.1
    obtain ⟨q, hother⟩ := hexists hcall.2
    by_cases hxo : x = other
    · exact ⟨[], O, by simp [Objects.run, hother, hxo], rfl, by rwa [Values.effect, if_pos hxo]⟩
    · obtain ⟨deleted, hrelease, hrel⟩ := h.release hx
      -- the assignment destroys what the object was, and constructs it again
      have hother' : Function.update O.root x none other = some q := by
        rwa [Function.update_of_ne (Ne.symm hxo)]
      have hmove := hrel.moveTo (Function.update_self ..) hother'
      rw [Function.update_of_ne (Ne.symm hxo), Function.update_idem, Function.update_idem] at hmove
      have hrun : O.run fuel (.moveAssign x other) =
          some ([], ⟨O.made, deleted, Function.update (Function.update O.root x
            (some q)) other (some none)⟩) := by
        simp [Objects.run, hx, hother, hxo, hrelease]
      exact ⟨[], _, hrun, rfl, by rw [Values.effect, if_neg hxo]; exact hmove⟩
  | destroy x =>
    obtain ⟨p, hx⟩ := hexists hcall
    obtain ⟨deleted, hrelease, hrel⟩ := h.release hx
    have hrun : O.run fuel (.destroy x) = some ([],
        ⟨O.made, deleted, Function.update O.root x none⟩) := by
      simp [Objects.run, hx, hrelease]
    exact ⟨[], _, hrun, rfl, hrel⟩
  | search x text =>
    obtain ⟨words, hx⟩ := hcall
    have hhas := h.has x
    rw [hx] at hhas
    generalize hroot : O.root x = q at hhas
    cases hhas with
    | automaton hr hA hd =>
      obtain ⟨l, hsearch, hl⟩ := hA.search text
      exact ⟨l, O, by simp [Objects.run, hroot, hr, hd, hsearch], ⟨words, hx, hl⟩, h⟩

/-- One call after the other. -/
theorem Owned.runs {O : Objects} {calls : List ObjectCall}
    (h : Owned fuel V O.made O.deleted O.root) (hcalls : V.AllowsAll calls)
    (hfuel : ∀ x words, .create x words ∈ calls → (words.map List.length).sum < fuel) :
    ∃ ls O', O.runs fuel calls = some (ls, O') ∧ V.AnswersAll calls ls ∧
      Owned fuel (calls.foldl Values.effect V) O'.made O'.deleted O'.root := by
  induction calls generalizing V O with
  | nil => exact ⟨[], O, rfl, trivial, h⟩
  | cons call calls ih =>
    obtain ⟨l, O₁, hrun, hl, h₁⟩ := h.run hcalls.1 fun x words he =>
      hfuel x words (he ▸ List.mem_cons_self)
    obtain ⟨ls, O₂, hruns, hls, h₂⟩ := ih h₁ hcalls.2 fun x words hmem =>
      hfuel x words (List.mem_cons_of_mem _ hmem)
    exact ⟨l :: ls, O₂, by simp [Objects.runs, hrun, hruns], ⟨hl, hls⟩, h₂⟩

end Run

theorem owned_start {fuel : ℕ} :
    Owned fuel (fun _ => none) Objects.start.made Objects.start.deleted Objects.start.root where
  has _ := .nothing
  unique h := by cases h
  freed h := by cases h
  fresh _ _ := rfl

/-- A program that uses objects as values is defined, and finds the words that they have; the nodes
of an automaton are there as long as an object has it, and then they have been deleted, each
once. -/
theorem objects_are_values {calls : List ObjectCall} {fuel : ℕ}
    (hcalls : Values.AllowsAll (fun _ => none) calls)
    (hfuel : ∀ x words, .create x words ∈ calls → (words.map List.length).sum < fuel) :
    ∃ ls O, Objects.start.runs fuel calls = some (ls, O) ∧
      Values.AnswersAll (fun _ => none) calls ls ∧ ∀ r A, O.made[r]? = some A →
        (∃! x, O.root x = some (some r)) ∧ O.deleted r = [] ∨
        (∀ x, O.root x ≠ some (some r)) ∧ (O.deleted r).Nodup ∧
          ∀ i, i ∈ O.deleted r ↔ i < A.size := by
  obtain ⟨ls, O, hruns, hls, h⟩ := owned_start.runs hcalls hfuel
  refine ⟨ls, O, hruns, hls, fun r A hr => ?_⟩
  by_cases hx : ∃ x, O.root x = some (some r)
  · obtain ⟨x, hx⟩ := hx
    have hhas := h.has x
    rw [hx] at hhas
    generalize List.foldl Values.effect (fun _ => none) calls x = v at hhas
    cases hhas with
    | automaton _ _ hd => exact Or.inl ⟨⟨x, hx, fun y hy => h.unique hy hx⟩, hd⟩
  · rw [not_exists] at hx
    exact Or.inr ⟨hx, h.freed hr hx⟩

/-- An automaton is moved twice, searched, and destroyed. -/
theorem objects_are_values_moved :
    ∃ ls O, Objects.start.runs 6 [.create 0 [[104, 101], [115, 104, 101]], .create 1 [],
        .moveAssign 1 0, .moveConstruct 2 1, .search 2 [115, 104, 101], .destroy 2, .destroy 0] =
        some (ls, O) ∧
      Values.AnswersAll (fun _ => none) [.create 0 [[104, 101], [115, 104, 101]], .create 1 [],
        .moveAssign 1 0, .moveConstruct 2 1, .search 2 [115, 104, 101], .destroy 2, .destroy 0]
        ls ∧
      ∀ r A, O.made[r]? = some A →
        (∃! x, O.root x = some (some r)) ∧ O.deleted r = [] ∨
        (∀ x, O.root x ≠ some (some r)) ∧ (O.deleted r).Nodup ∧
          ∀ i, i ∈ O.deleted r ↔ i < A.size := by
  refine objects_are_values ?_ fun x words hmem => ?_
  · simp [Values.AllowsAll, Values.Allows, Values.effect]
  · simp only [List.mem_cons, ObjectCall.create.injEq, reduceCtorEq, List.not_mem_nil,
      or_false] at hmem
    rcases hmem with ⟨-, rfl⟩ | ⟨-, rfl⟩ <;> decide

end TinyPointerTrees.AhoCorasick
