import TinyPointerTrees.Art.Runs
import TinyPointerTrees.Art.SharedInsert

/-!
# No insertion is lost

`no_lost_insert` — in every interleaving of any number of threads that insert distinct keys
of a prefix-free universe and look such keys up, a lookup that begins after an insertion of
its key has returned answers the value it was inserted with, and no lookup answers
the value of another key. A lookup that ends has answered, and an insertion fails only when
a table is full, or for the empty key. `TwoThreads` executes schedules of the machine.
-/

namespace TinyPointerTrees.Art

open Conc ArtM Protocol

variable {V : Variant} {A : Tree V} {ids : ℕ → UInt64} {U : Set Key} {t u : ℕ} {x : World V}
  {y : SharedTree V} {s : Heap V} {n : Ref} {k : Key} {tid : UInt64} {called : List (Key × UInt64)}
  {returned : List Returned}

/-! ### The first state -/

/-- The ghost state of a new tree, whose root has this id. -/
def Ghost.initial (root : Ref) (id : UInt64) : Ghost where
  tree := .empty
  place := Function.update (fun _ => none) [] (some root)
  kind := Function.update (fun _ => none) root (some (.node [] [] id))
  owner _ := none
  doing _ := none

/-- The invariant holds of a new tree. -/
theorem Tree.Created.inv (h : A.Created ids s) (U : Set Key) :
    Inv A U (.initial s, .initial A.root.2 (s.get A.root.2).id) := by
  have hrest := h.atRest
  obtain ⟨id, hid⟩ : ∃ id, (s.get A.root.2).id = id := ⟨_, rfl⟩
  rw [hid]
  have hplace : ∀ (q : Key) n, Function.update (fun _ => none) [] (some A.root.2) q = some n →
    q = [] ∧ n = A.root.2 := by
    intro q n hq
    rw [Function.update_apply] at hq
    split_ifs at hq with hq'
    exact ⟨hq', (Option.some.inj hq).symm⟩
  have hkind : ∀ n κ, Function.update (fun _ => none) A.root.2
    (some (Kind.node [] [] id)) n = some κ →
      n = A.root.2 ∧ κ = .node [] [] id := by
    intro n κ hn
    rw [Function.update_apply] at hn
    split_ifs at hn with hn'
    exact ⟨hn', (Option.some.inj hn).symm⟩
  have hroot : Function.update (fun _ => none) A.root.2 (some (Kind.node [] [] id)) A.root.2 =
    some (.node [] [] id) :=
    Function.update_self ..
  have hnode : ∀ q π n, (RadixTree.empty : RadixTree UInt8 UInt64).item q = some ⟨π, none⟩ →
      Function.update (fun _ => none) [] (some A.root.2) q = some n →
      Function.update (fun _ => none) A.root.2 (some (Kind.node [] [] id)) n =
      some (.node q π (s.get n).id) := by
    intro q π n hitem hq
    obtain ⟨rfl, rfl⟩ := hplace q n hq
    rw [RadixTree.empty.root] at hitem
    cases hitem
    rw [hid]
    exact hroot
  have hleaf : ∀ q r v n, (RadixTree.empty : RadixTree UInt8 UInt64).item q = some ⟨r, some v⟩ →
      Function.update (fun _ => none) [] (some A.root.2) q = some n →
      Function.update (fun _ => none) A.root.2 (some (Kind.node [] [] id)) n = some (.leaf v) :=
    fun q r v n hitem _ => absurd ⟨q, _, hitem, rfl, rfl⟩ RadixTree.not_maps_empty
  have hM : Function.update (fun _ => none) ([] : Key) (some A.root.2) [] = some A.root.2 :=
    Function.update_self ..
  exact {
    wf := hrest.wf
    shape := hrest.shape
    place_node := hnode
    place_leaf := hleaf
    live := fun n κ hn => by
      rw [(hkind n κ hn).1]
      exact hrest.shape.live hM
    ofKind := fun n κ hn => by
      obtain ⟨κ', hκ', hof⟩ := hrest.shape.ofKind hnode hleaf hM
      obtain ⟨rfl, rfl⟩ := hkind n κ hn
      obtain ⟨-, rfl⟩ := hkind _ κ' hκ'
      exact hof
    word := fun n κ hn => by
      obtain ⟨rfl, -⟩ := hkind n κ hn
      obtain ⟨v, hv, -, hlt⟩ := hrest.word [] _ hM
      exact ⟨v, hv, by omega⟩
    free := fun n p π id' hn _ => by
      obtain ⟨rfl, hκ⟩ := hkind n _ hn
      cases hκ
      exact hM
    owned := fun n t hn => by cases hn
    locked := fun n t κ hn => by cases hn
    insertions := ⟨fun k v hk => absurd hk List.not_mem_nil, List.nodup_nil⟩
    maps := fun k v hk => absurd hk RadixTree.not_maps_empty
    leaf := fun n v hn => by cases (hkind n _ hn).2
    doing := fun t v hv => by cases hv
    doing_inj := fun t u v hv => by cases hv
    began := fun t => le_rfl
    ended := fun l hl => absurd hl List.not_mem_nil
    stored := fun i hi => absurd hi List.not_mem_nil
    observed := ⟨fun i hi => absurd hi List.not_mem_nil, fun i hi => absurd hi List.not_mem_nil,
      fun i hi => absurd hi List.not_mem_nil, fun i hi => absurd hi List.not_mem_nil⟩
    lawful := ⟨fun i hi => absurd hi List.not_mem_nil, fun i hi => absurd hi List.not_mem_nil,
      fun i hi => absurd hi List.not_mem_nil, fun i hi => absurd hi List.not_mem_nil⟩ }

/-! ### Calls -/

theorem Lawful.mono {called' : List (Key × UInt64)} (h : Lawful called returned)
    (hsub : ∀ e ∈ called, e ∈ called') : Lawful called' returned :=
  { h with own := fun l hl k r hc ha h0 => hsub _ (h.own l hl k r hc ha h0) }

/-- One more call has ended, the last. -/
theorem Lawful.cons {e : Returned} (h : Lawful called returned)
    (hlast : ∀ l ∈ returned, l.began ≤ e.ended)
    (hinsert : ∀ k tid f, e.call = .insert k tid → e.answer = .error f → Fails k f)
    (hlookup : ∀ k, e.call = .lookup k → ∃ r, e.answer = .ok (some r) ∧ (r ≠ 0 → (k, r) ∈ called) ∧
      ∀ i ∈ returned, ∀ tid, i.call = .insert k tid → i.answer = .ok none →
      i.ended < e.began → r = tid) : Lawful called (e :: returned) := by
  refine ⟨fun i hi l hl k tid r hic hia hlc hla hlt => ?_, fun l hl k r hc ha h0 => ?_,
    fun l hl k hc => ?_, fun i hi k tid f hc ha => ?_⟩
  · rcases List.mem_cons.mp hl with rfl | hold
    · obtain ⟨r', hr', -, hfound⟩ := hlookup k hlc
      rw [hla] at hr'
      cases hr'
      rcases List.mem_cons.mp hi with rfl | hi
      · rw [hic] at hlc
        cases hlc
      · exact hfound i hi tid hic hia hlt
    · rcases List.mem_cons.mp hi with rfl | hi
      · have := hlast l hold
        omega
      · exact h.found i hi l hold k tid r hic hia hlc hla hlt
  · rcases List.mem_cons.mp hl with rfl | hl
    · obtain ⟨r', hr', hown, -⟩ := hlookup k hc
      rw [ha] at hr'
      cases hr'
      exact hown h0
    · exact h.own l hl k r hc ha h0
  · rcases List.mem_cons.mp hl with rfl | hl
    · obtain ⟨r, hr, -⟩ := hlookup k hc
      exact ⟨r, hr⟩
    · exact h.answers l hl k hc
  · rcases List.mem_cons.mp hi with rfl | hi
    · exact hinsert k tid f hc ha
    · exact h.fails i hi k tid f hc ha

/-- One more call has ended, the last. -/
theorem Observed.cons {R : RadixTree UInt8 UInt64} {doing doing' : ℕ → Option UInt64} {e : Returned}
    (h : Observed R doing called returned) (hlast : ∀ l ∈ e :: returned, l.began ≤ e.ended)
    (hdoing : ∀ u v, doing' u = some v → doing u = some v)
    (hsilent : ∀ k v a, e.call = .insert k v → e.answer = .ok a → a = none)
    (hread : ∀ k r, e.call = .lookup k → e.answer = .ok (some r) → (r ≠ 0 → R.Maps k r) ∧
      ∀ l ∈ returned, ∀ v, l.call = .lookup k → l.answer = .ok (some v) → v ≠ 0 →
      l.ended < e.began → r = v)
    (hfailed : ∀ k v f, e.call = .insert k v → e.answer = .error f → (k, v) ∈ called ∧
      (∀ u, doing' u ≠ some v) ∧ ¬ R.Maps k v) : Observed R doing' called (e :: returned) := by
  refine ⟨fun i hi k v a hc ha => ?_, fun l hl k r hc ha h0 => ?_,
    fun l hl l' hl' k r r' hc ha h0 hc' ha' hlt => ?_, fun i hi k v f hc ha => ?_⟩
  · rcases List.mem_cons.mp hi with rfl | hi
    · exact hsilent k v a hc ha
    · exact h.silent i hi k v a hc ha
  · rcases List.mem_cons.mp hl with rfl | hl
    · exact (hread k r hc ha).1 h0
    · exact h.read l hl k r hc ha h0
  · rcases List.mem_cons.mp hl with rfl | hold
    · have := hlast l' hl'
      omega
    · rcases List.mem_cons.mp hl' with rfl | hold'
      · exact (hread k r' hc' ha').2 l hold r hc ha h0 hlt
      · exact h.again l hold l' hold' k r r' hc ha h0 hc' ha' hlt
  · rcases List.mem_cons.mp hi with rfl | hi
    · exact hfailed k v f hc ha
    · obtain ⟨hcalled, hno, hnot⟩ := h.failed i hi k v f hc ha
      exact ⟨hcalled, fun u hu => hno u (hdoing u v hu), hnot⟩

/-- The calls of other threads begin and end without a change of the memory. -/
theorem Rely.of_call {d : ℕ → Option UInt64} (hheap : y.heap = x.1.heap)
    (hcalled : ∀ e ∈ x.1.called, e ∈ y.called) (hdoing : d u = x.2.doing u)
    (hbegan : y.began u = x.1.began u)
    (hreturned : ∀ i ∈ y.returned, i ∈ x.1.returned ∨ x.1.began u ≤ i.ended) :
    Rely u x (y, { x.2 with doing := d }) := by
  have hget : ∀ n, World.get (y, { x.2 with doing := d }) n = x.get n := by
    intro n
    unfold World.get
    rw [hheap]
  have hword : ∀ n, World.word (y, { x.2 with doing := d }) n = x.word n := by
    intro n
    unfold World.word
    rw [hget]
  refine ⟨⟨fun n hn => ?_, fun _ _ => id, fun _ _ => id, hcalled, fun n _ _ => by rw [hword],
    fun n _ _ _ _ => hget n⟩, fun n hn => ⟨hn, hget n, fun _ _ _ _ => id, rfl⟩, hdoing, fun _ _ _ =>
    id, hbegan, hreturned⟩
  rwa [hheap]

/-- An insertion begins. -/
theorem Inv.call_insert (h : Inv A U x) (hc : artInvoke A U t (.insert k tid) x.1 y) :
    Inv A U (y, { x.2 with doing := Function.update x.2.doing t (some tid) }) ∧
      (∀ u, u ≠ t → Rely u x (y, { x.2 with doing := Function.update x.2.doing t (some tid) })) ∧
      Holding t tid false [] []
      (y, { x.2 with doing := Function.update x.2.doing t (some tid) }) := by
  obtain ⟨hkU, hload, htid, hnew, rfl⟩ := hc
  subst hload
  have hfresh : ∀ u, x.2.doing u ≠ some tid := fun u hu => hnew tid (h.doing u tid hu)
  refine ⟨{ h with
    insertions := ?insertions
    maps := fun k v hk => List.mem_cons_of_mem _ (h.maps k v hk)
    doing := ?doing
    doing_inj := ?inj
    began := ?began
    ended := fun l hl => (h.ended l hl).trans (Nat.le_succ _)
    observed := { h.observed with failed := ?failed }
    lawful := h.lawful.mono fun e => List.mem_cons_of_mem _ }, fun u hu => ?_, ?_⟩
  case insertions =>
    refine ⟨fun k v hk => ?_, ?_⟩
    · rcases List.mem_cons.mp hk with he | hk
      · cases he
        exact ⟨hkU, rfl, htid⟩
      · exact h.insertions.mem k v hk
    · refine List.nodup_cons.mpr ⟨fun hmem => ?_, h.insertions.nodup⟩
      obtain ⟨⟨k, v⟩, hk, rfl⟩ := List.mem_map.mp hmem
      exact hnew v hk
  case doing =>
    intro u v hv
    simp only [Function.update_apply] at hv
    split_ifs at hv with hu
    · cases hv
      exact List.mem_cons_self
    · exact List.mem_cons_of_mem _ (h.doing u v hv)
  case inj =>
    intro u u' v hv hv'
    simp only [Function.update_apply] at hv hv'
    split_ifs at hv hv' with hu hu'
    · exact hu.trans hu'.symm
    · cases hv
      exact absurd hv' (hfresh u')
    · cases hv'
      exact absurd hv (hfresh u)
    · exact h.doing_inj u u' v hv hv'
  case began =>
    intro u
    simp only [Function.update_apply]
    split_ifs
    · exact Nat.le_succ _
    · exact (h.began u).trans (Nat.le_succ _)
  case failed =>
    intro i hi k v e hc ha
    obtain ⟨hcalled, hno, hnot⟩ := h.observed.failed i hi k v e hc ha
    refine ⟨List.mem_cons_of_mem _ hcalled, fun u hu => ?_, hnot⟩
    simp only [Function.update_apply] at hu
    split_ifs at hu
    · cases hu
      exact hnew _ ((h.insertions.mem _ _ hcalled).2.1 ▸ hcalled)
    · exact hno u hu
  · exact .of_call rfl (fun _ => List.mem_cons_of_mem _) (Function.update_of_ne hu ..)
      (Function.update_of_ne hu ..) fun _ => Or.inl
  · refine ⟨Function.update_self .., ⟨fun ⟨k, hk⟩ => ?_, fun h => absurd h Bool.false_ne_true⟩,
      List.nodup_nil, by simp,
      List.nodup_nil, by simp⟩
    exact absurd (h.shape.keyed k tid hk ▸ h.maps k tid hk) (hnew tid)

/-- A lookup begins. -/
theorem Inv.call_lookup (h : Inv A U x) (hc : artInvoke A U t (.lookup k) x.1 y) :
    Inv A U (y, x.2) ∧ (∀ u, u ≠ t → Rely u x (y, x.2)) ∧
      Tree.LookingUp t k (x.2.tree.Maps k) (y, x.2) := by
  obtain ⟨hkU, rfl⟩ := hc
  refine ⟨{ h with
    began := ?began
    ended := fun l hl => (h.ended l hl).trans (Nat.le_succ _) }, fun u hu => ?_, fun v hv => hv,
    fun i hi v hc ha _ => h.stored i hi k v hc ha, fun l hl v hc ha h0 _ =>
      h.observed.read l hl k v hc ha h0⟩
  case began =>
    intro u
    simp only [Function.update_apply]
    split_ifs
    · exact Nat.le_succ _
    · exact (h.began u).trans (Nat.le_succ _)
  · exact .of_call rfl (fun _ => id) rfl (Function.update_of_ne hu ..) fun _ => Or.inl

/-- A call ends. -/
theorem Inv.finish {a : ArtCall} {r : ArtRet} (h : Inv A U x) (hf : artFinish t a r x.1 y)
    (hstored : ∀ k v b, a = .insert k v → r = .ok b → b = none ∧ x.2.tree.Maps k v)
    (hinsert : ∀ k tid f, a = .insert k tid → r = .error f → A.loadKey tid = k ∧
      Tree.Failed t tid k f x)
    (hlookup : ∀ k, a = .lookup k → ∃ K v, r = .ok (some v) ∧ Tree.LookedUp t k K v x) :
    Inv A U (y, { x.2 with doing := Function.update x.2.doing t none }) ∧
      (∀ u, u ≠ t → Rely u x (y, { x.2 with doing := Function.update x.2.doing t none })) ∧
      Function.update x.2.doing t none t = none := by
  subst hf
  have hdoing : ∀ u v, Function.update x.2.doing t none u = some v → x.2.doing u = some v := by
    intro u v hv
    rw [Function.update_apply] at hv
    split_ifs at hv
    exact hv
  have hended : ∀ l ∈ (⟨a, r, x.1.began t, x.1.time⟩ : Returned) :: x.1.returned,
    l.began ≤ x.1.time := by
    intro l hl
    rcases List.mem_cons.mp hl with rfl | hl
    · exact h.began t
    · exact h.ended l hl
  refine ⟨{ h with
    doing := fun u v hv => h.doing u v (hdoing u v hv)
    doing_inj := fun u u' v hv hv' => h.doing_inj u u' v (hdoing u v hv) (hdoing u' v hv')
    began := fun u => (h.began u).trans (Nat.le_succ _)
    ended := fun l hl => (hended l hl).trans (Nat.le_succ _)
    stored := ?stored
    observed := h.observed.cons hended hdoing (fun k v b hc ha => (hstored k v b hc ha).1)
      (fun k r' hc ha => ?read) fun k v f hc ha => ?failed
    lawful := h.lawful.cons h.ended (fun k tid f hc ha => (hinsert k tid f hc ha).2.fails)
      fun k hc => ?lookup }, fun u hu => ?_, Function.update_self ..⟩
  case stored =>
    intro i hi k v hc ha
    rcases List.mem_cons.mp hi with rfl | hi
    · exact (hstored k v none hc ha).2
    · exact h.stored i hi k v hc ha
  case read =>
    obtain ⟨K, v, hv, hl⟩ := hlookup k hc
    obtain rfl : r' = v := by simpa using ha.symm.trans hv
    exact ⟨hl.stored, fun l hmem w hcl hal h0 hlt => hl.found w (hl.read l hmem w hcl hal h0 hlt)⟩
  case failed =>
    obtain ⟨hload, hfail⟩ := hinsert k v f hc ha
    have hdo := hfail.holding.doing
    refine ⟨hload ▸ h.doing t v hdo, fun u hu => ?_, fun hk =>
      Bool.false_ne_true (hfail.holding.maps.mp ⟨k, hk⟩)⟩
    obtain rfl := h.doing_inj u t v (hdoing u v hu) hdo
    simp only [Function.update_self] at hu
    cases hu
  case lookup =>
    obtain ⟨K, v, hv, hl⟩ := hlookup k hc
    exact ⟨v, hv, hl.own, fun i hi tid hic hia hlt =>
      hl.found tid (hl.returned i hi tid hic hia hlt)⟩
  · refine .of_call rfl (fun _ => id) (Function.update_of_ne hu ..) rfl fun i hi => ?_
    rcases List.mem_cons.mp hi with rfl | hi
    · exact Or.inr (h.began u)
    · exact Or.inl hi

/-! ### What a call does -/

/-- An insertion that ends in this state may return. -/
theorem insert_post (hU : PrefixFree U) (h : Inv A U x) (hat : Holding t tid false [] [] x)
    (hload : A.loadKey tid = k) :
    (artProtocol A U).wp (boundedMachine A ids U) t (artCode A (.insert k tid))
      ((artProtocol A U).post (boundedMachine A ids U) t (.insert k tid)) x := by
  have hR : (artProtocol A U).Stable t (fun a y => a = none ∧
    Holding (V := V) t tid true [] [] y) :=
    fun (_ : Option UInt64) _ _ h hr _ => ⟨h.1, h.2.rely hr⟩
  refine wp_mono (wpOr_map h Tree.Failed.stable hR (wpOr_mono (Tree.insert_wp hU h hat hload)
    (fun _ _ _ hy => ⟨rfl, hy⟩) fun _ _ _ he => he)) fun r y hiy hr s' hf =>
    ⟨_, hiy.finish hf (fun k' v b hc ha => ?_) (fun k' v f hc ha => ?_) fun k' hc => by cases hc⟩
  · cases hc
    rw [ha] at hr
    obtain ⟨k', hk'⟩ := hr.2.maps.mpr rfl
    refine ⟨hr.1, ?_⟩
    rwa [← hload, hiy.shape.keyed k' tid hk']
  · cases hc
    rw [ha] at hr
    exact ⟨hload, hr⟩

/-- A lookup that ends in this state may return. -/
theorem lookup_post (hU : PrefixFree U) (hk : k ∈ U) (h : Inv A U x)
    (hl : Tree.LookingUp t k (x.2.tree.Maps k) x) :
    (artProtocol A U).wp (boundedMachine A ids U) t (artCode A (.lookup k)) ((artProtocol A U).post
      (boundedMachine A ids U) t (.lookup k)) x := by
  have hE : (artProtocol A U).Stable t (fun (_ : Leave) (_ : World V) => False) :=
    fun _ _ _ h _ _ => h
  have hR : (artProtocol A U).Stable t (fun a y => ∃ r, a = some r ∧
    Tree.LookedUp t k (x.2.tree.Maps k) r y) :=
    fun a y z ⟨r, ha, hy⟩ hr hi => ⟨r, ha, Tree.LookedUp.stable r y z hy hr hi⟩
  refine wp_mono (wpOr_map h hE hR (wpOr_mono (Tree.lookup_wp hU hk h hl) (fun r _ _ hy =>
    ⟨r, rfl, hy⟩) fun _ _ _ he => he)) fun r y hiy hr s' hf => ?_
  cases r with
  | error e => exact hr.elim
  | ok a =>
    obtain ⟨r, rfl, hr⟩ := hr
    refine ⟨_, hiy.finish hf (fun k' v b hc _ => by cases hc) (fun k' v f hc _ => by cases hc)
      fun k' hc => ?_⟩
    cases hc
    exact ⟨_, r, rfl, hr⟩

/-- A call may be made whenever the invariant holds. -/
theorem call_safe {a : ArtCall} (hU : PrefixFree U) (h : Inv A U x) (hinv : artInvoke
      A U t a x.1 y) :
    ∃ g', (artProtocol A U).inv (y, g') ∧ (artProtocol A U).guar t x (y, g') ∧
      (artProtocol A U).wp (boundedMachine A ids U) t (artCode A a)
        ((artProtocol A U).post (boundedMachine A ids U) t a) (y, g') := by
  cases a with
  | insert k tid =>
    obtain ⟨hi, hg, hat⟩ := h.call_insert hinv
    exact ⟨_, hi, hg, insert_post hU hi hat hinv.2.1⟩
  | lookup k =>
    obtain ⟨hi, hg, hl⟩ := h.call_lookup hinv
    exact ⟨_, hi, hg, lookup_post hU hinv.1 hi hl⟩

/-! ### A run of two threads -/

namespace TwoThreads

/-- The configurations of the threads. -/
abbrev Cfg (V : Variant) := Machine.Cfg (ArtOp V) (SharedTree V) ℕ ArtCall ArtRet

/-- What the next thread of a schedule does. -/
inductive Action where
  /-- Thread `t` calls. -/
  | call (t : ℕ) (a : ArtCall)
  /-- Thread `t` takes at most `n` steps. -/
  | proceed (t n : ℕ)
  /-- Thread `t` returns. -/
  | finish (t : ℕ)

/-- The keys of one byte. -/
def keys : Set Key := {k | k.length = 1}

theorem prefixFree_keys : PrefixFree keys := fun _ hk _ hk' h => h.eq_of_length (hk.trans hk'.symm)

/-- The call is one that threads may make. -/
def mayCall (A : Tree V) : ArtCall → SharedTree V → Bool
  | .insert k tid, x =>
    k.length == 1 && A.loadKey tid == k && tid != 0 && x.called.all fun e => e.1 != k
  | .lookup k, _ => k.length == 1

/-- Thread `t` is in a call. -/
def begin (t : ℕ) (a : ArtCall) (x : SharedTree V) : SharedTree V where
  heap := x.heap
  time := x.time + 1
  began := Function.update x.began t x.time
  called := match a with
    | .insert k tid => (k, tid) :: x.called
    | .lookup _ => x.called
  returned := x.returned

theorem artInvoke_begin {a : ArtCall} {x : SharedTree V} (h : mayCall A a x = true) :
    artInvoke A keys t a x (begin t a x) := by
  cases a with
  | insert k tid =>
    simp only [mayCall, Bool.and_eq_true, beq_iff_eq, bne_iff_ne, List.all_eq_true] at h
    obtain ⟨⟨⟨hk, hload⟩, htid⟩, hnew⟩ := h
    exact ⟨hk, hload, htid, fun v hv => hnew (k, v) hv rfl, rfl⟩
  | lookup k => exact ⟨beq_iff_eq.mp h, rfl⟩

/-- The operation leaves the run bounded. -/
def allowed (t : ℕ) : {β : Type} → ArtOp V β → Heap V → Bool
  | _, .compareExchange n _ _, s => writeSections (s.get n).typeVersionLockObsolete ≤ 2 ^ 59
  | _, .exitEpocheAndCleanup, s => (s.deletionLists t).thresholdCounter ≤ 256
  | _, _, _ => true

theorem bounded_of_allowed {β : Type} {o : ArtOp V β} {x : SharedTree V}
    (h : allowed t o x.heap = true) : Bounded A t o x := by
  cases o with
  | compareExchange n w v =>
    rw [allowed, decide_eq_true_eq] at h
    exact h
  | exitEpocheAndCleanup =>
    rw [allowed, decide_eq_true_eq] at h
    refine ⟨x.heap.countEpoche t, ?_, Heap.tables_countEpoche⟩
    unfold Heap.exitEpocheAndCleanup
    simp only [Heap.deletionLists_countEpoche]
    rw [if_neg (not_lt.mpr h)]
    rfl
  | _ => trivial

/-- Thread `t`, blocked where the run would not be bounded. -/
def handler (A : Tree V) (ids : ℕ → UInt64) (t : ℕ) : Prog.Handler (ArtOp V) (Heap V) where
  exec o s := if allowed t o s then some (o.exec A.indexer ids t s) else none

/-- What is not possible is not done. -/
def perform (A : Tree V) (ids : ℕ → UInt64) (c : Cfg V) : Action → Cfg V
  | .call t a =>
    match c.run t with
    | none => if mayCall A a c.st then c.put t (begin t a c.st) (some (a, artCode A a)) else c
    | some _ => c
  | .proceed t n =>
    match c.run t with
    | none => c
    | some (a, p) =>
      let r := Prog.advance (handler A ids t) n p c.st.heap
      c.put t { c.st with heap := r.2 } (some (a, r.1))
  | .finish t =>
    match c.run t with
    | some (a, .ret r) => c.put t { c.st with
        time := c.st.time + 1
        returned := ⟨a, r, c.st.began t, c.st.time⟩ :: c.st.returned } none
    | _ => c

theorem steps_perform (c : Cfg V) (e : Action) :
    (boundedMachine A ids keys).Steps c (perform A ids c e) := by
  cases e with
  | call t a =>
    simp only [perform]
    split
    next hrun =>
      split_ifs with hmay
      · exact .single (.invoke hrun (artInvoke_begin hmay))
      · exact .refl
    next => exact .refl
  | proceed t n =>
    simp only [perform]
    split
    next => exact .refl
    next a p hrun =>
      have hsem : ∀ {β : Type} (o : ArtOp V β) (s : Heap V) (b : β) (s' : Heap V),
          (handler A ids t).exec o s = some (b, s') →
          (boundedMachine A ids keys).sem t o { c.st with heap := s } b
          { c.st with heap := s' } := by
        intro β o s b s' hs
        simp only [handler] at hs
        split_ifs at hs with hallowed
        obtain ⟨rfl, rfl⟩ := Prod.mk.inj (Option.some.inj hs)
        exact ⟨bounded_of_allowed hallowed, rfl, rfl⟩
      have hput : c.put t c.st (some (a, p)) = c := by
        rw [Machine.Cfg.put, ← hrun, Function.update_eq_self]
      have h := Machine.steps_of_reaches _ (fun s => { c.st with heap := s }) hsem c (a := a)
        (Prog.reaches_advance _ n p c.st.heap)
      rwa [show ({ c.st with heap := c.st.heap } : SharedTree V) = c.st from rfl, hput] at h
  | finish t =>
    simp only [perform]
    split
    next a r hrun => exact .single (.finish hrun rfl)
    next => exact .refl

/-- A schedule is one of the interleavings. -/
theorem steps_schedule (l : List Action) (c : Cfg V) :
    (boundedMachine A ids keys).Steps c (l.foldl (perform A ids) c) := by
  induction l generalizing c with
  | nil => exact .refl
  | cons e l ih => exact (steps_perform c e).trans (ih _)

/-- `TINY_ART_OLC`, with keys of one byte. -/
def tree (root : ArtTinyPtr .olc × Ref) : Tree .olc :=
  ⟨fun _ => oneBucket, fun v => [v.toUInt8], root⟩

/-- Nodes are counted. -/
def nodeIds (n : ℕ) : UInt64 := UInt64.ofNat n

/-- Thread `1` looks the key up while thread `0` inserts it, and again. -/
def schedule : List Action :=
  [.call 0 (.insert [7] 7), .proceed 0 9, .call 1 (.lookup [7]), .proceed 1 4, .proceed 0 50,
    .finish 0, .proceed 1 50, .finish 1, .call 1 (.lookup [7]), .proceed 1 50, .finish 1]

/-- When a call began and ended, and what it answered. -/
def summary (l : Returned) : ℕ × ℕ × Option UInt64 :=
  (l.began, l.ended, match l.answer with
    | .ok r => r
    | .error _ => none)

/-- The calls of the schedule. -/
def answered : Option (List (ℕ × ℕ × Option UInt64)) :=
  (Variant.created .olc nodeIds).map fun r =>
    (schedule.foldl (perform (tree r.1) nodeIds)
      (Machine.idleCfg (.initial r.2))).st.returned.map summary

theorem answered_eq : answered = some [(4, 5, some 7), (1, 3, some 7), (0, 2, none)] := by
  decide +kernel

end TwoThreads

/-! ### The theorem -/

/-- No insertion is lost, and no lookup answers the value of another key. -/
theorem no_lost_insert (hU : PrefixFree U) (h : A.Created ids s)
    {c : Machine.Cfg (ArtOp V) (SharedTree V) ℕ ArtCall ArtRet}
    (hc : (boundedMachine A ids U).Steps (Machine.idleCfg (.initial s)) c) :
    Lawful c.st.called c.st.returned := by
  obtain ⟨g, hi, -⟩ := (artProtocol A U).sound (h.inv U) (fun _ => rfl)
    (fun t a x y hi _ hinv => call_safe hU hi hinv) hc
  exact hi.lawful

open TwoThreads in
theorem no_lost_insert_two :
    ∃ (A : Tree .olc) (s : Heap .olc) (c : TwoThreads.Cfg .olc), PrefixFree keys ∧
      A.Created nodeIds s ∧ (boundedMachine A nodeIds keys).Steps (Machine.idleCfg (.initial s)) c ∧
      Lawful c.st.called c.st.returned ∧
      c.st.returned.map summary = [(4, 5, some 7), (1, 3, some 7), (0, 2, none)] := by
  obtain ⟨⟨root, s⟩, hs, h⟩ := Option.map_eq_some_iff.mp answered_eq
  have hA : (tree root).Created nodeIds s := .of_eq hs
  have hc : (boundedMachine (tree root) nodeIds keys).Steps (Machine.idleCfg (.initial s)) _ :=
    steps_schedule schedule _
  exact ⟨tree root, s, _, prefixFree_keys, hA, hc, no_lost_insert prefixFree_keys hA hc, h⟩

end TinyPointerTrees.Art
