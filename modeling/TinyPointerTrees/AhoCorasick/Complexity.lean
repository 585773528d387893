import TinyPointerTrees.AhoCorasick.Search

/-!
# How long `Create` and `Search` take

The loops of `Create` and `Search` with counters: how often a suffix link is followed,
and how many nodes the loop that reports visits. A counter changes nothing else
(`createCounted_fst`, `searchCounted_fst`).

* `create_linear` — along a word, a character makes the link of a node one character
  longer at most, and each link that is followed to find it makes it shorter. So all
  words together have no more links followed than they have characters.
* `search_linear` — a suffix link makes the node less deep, and a character makes it one
  character deeper at most, so there are no more links followed than characters
  read; and all nodes that a terminal link leads to are reported. So the whole search
  takes time linear in the text and in what is reported.
-/

namespace TinyPointerTrees.AhoCorasick

open SuffixLinks Automaton

namespace Automaton

/-- `follow`, and how many links it has followed. -/
def followCounted (A : Automaton) (c : UInt8) : (fuel : ℕ) → ℕ → Option (ℕ × ℕ)
  | 0, _ => none
  | fuel + 1, node =>
    if node ≠ 0 ∧ (A.nodes node).children c = none then do
      let link ← (A.nodes node).suffixLink
      let (node, links) ← followCounted A c fuel link
      return (node, links + 1)
    else some (node, 0)

/-- `linkChild`, and how many links have been followed. -/
def linkChildCounted (fuel node : ℕ) :
    (Automaton × List ℕ) × ℕ → UInt8 → Option ((Automaton × List ℕ) × ℕ)
  | ((A, queue), links), c =>
    match (A.nodes node).children c with
    | none => some ((A, queue), links)
    | some child => do
      let link ← (A.nodes node).suffixLink
      let (fallback, more) ← followCounted A c fuel link
      return ((A.modify child fun n =>
        { n with suffixLink := some (A.fallbackLink fallback child c) }, queue ++ [child]),
        links + more)

/-- `visit`, and how many links it has followed. -/
def visitCounted (fuel node : ℕ) (A : Automaton) (queue : List ℕ) :
    Option ((Automaton × List ℕ) × ℕ) := do
  let link ← (A.nodes node).suffixLink
  allBytes.foldlM (linkChildCounted fuel node)
    ((A.modify node fun n => { n with terminalLink := A.terminalLinkOf link }, queue), 0)

/-- `visitAll`, and how many links it has followed. -/
def visitAllCounted (fuel : ℕ) :
    (rounds : ℕ) → Automaton → (queue : List ℕ) → Option (Automaton × ℕ)
  | 0, _, _ => none
  | _ + 1, A, [] => some (A, 0)
  | rounds + 1, A, node :: queue => do
    let ((A, queue), links) ← visitCounted fuel node A queue
    let (A, more) ← visitAllCounted fuel rounds A queue
    return (A, links + more)

/-- `Create`, and how many links it has followed. -/
def createCounted (fuel : ℕ) (words : List (List UInt8)) : Option (Automaton × ℕ) :=
  let A := words.foldl addWord new
  let (A, queue) := allBytes.foldl linkRootChild (A, [])
  visitAllCounted fuel fuel A queue

/-- `report`, and how many nodes it has visited. -/
def reportCounted (A : Automaton) (text : List UInt8) (i : ℕ) :
    (fuel : ℕ) → Option ℕ → Option (List Match × ℕ)
  | _, none => some ([], 0)
  | 0, some _ => none
  | fuel + 1, some node => do
    let n := A.nodes node
    if n.isTerminal then
      let start := (i : ℤ) + 1 - n.wordLength
      let word ← substr text start n.wordLength
      let (shorter, visits) ← reportCounted A text i fuel n.terminalLink
      return (⟨start.toNat, i, word⟩ :: shorter, visits + 1)
    else
      let (shorter, visits) ← reportCounted A text i fuel n.terminalLink
      return (shorter, visits + 1)

/-- `searchFrom`, and how many links it has followed and nodes visited. -/
def searchFromCounted (A : Automaton) (fuel : ℕ) (text : List UInt8) :
    (rest : List UInt8) → (i node : ℕ) → Option (List Match × ℕ × ℕ)
  | [], _, _ => some ([], 0, 0)
  | c :: rest, i, node => do
    let (node, links) ← followCounted A c fuel node
    let node := ((A.nodes node).children c).getD node
    let (reported, visits) ← reportCounted A text i fuel (some node)
    let (later, links', visits') ← searchFromCounted A fuel text rest (i + 1) node
    return (reported ++ later, links + links', visits + visits')

/-- `Search`, with the counters. -/
def searchCounted (A : Automaton) (fuel : ℕ) (text : List UInt8) : Option (List Match × ℕ × ℕ) :=
  searchFromCounted A fuel text text 0 0

variable {A : Automaton} {c : UInt8} {text : List UInt8} {i : ℕ}

theorem followCounted_fst (fuel node : ℕ) :
    (followCounted A c fuel node).map Prod.fst = follow A c fuel node := by
  induction fuel generalizing node with
  | zero => rfl
  | succ fuel ih =>
    simp only [followCounted, follow]
    split_ifs
    · cases (A.nodes node).suffixLink with
      | none => rfl
      | some link =>
        simp only [Option.bind_eq_bind, Option.bind_some, ← ih]
        cases followCounted A c fuel link <;> rfl
    · rfl

theorem linkChildCounted_fst (fuel node links : ℕ) (S : Automaton × List ℕ) :
    (linkChildCounted fuel node (S, links) c).map Prod.fst = linkChild fuel node S c := by
  obtain ⟨A, queue⟩ := S
  simp only [linkChildCounted, linkChild, ← followCounted_fst]
  cases (A.nodes node).children c with
  | none => rfl
  | some child =>
    cases (A.nodes node).suffixLink with
    | none => rfl
    | some link =>
      simp only [Option.bind_eq_bind, Option.bind_some]
      cases followCounted A c fuel link <;> rfl

theorem linkChildrenCounted_fst (fuel node links : ℕ) (S : Automaton × List ℕ) (cs : List UInt8) :
    (cs.foldlM (linkChildCounted fuel node) (S, links)).map Prod.fst = cs.foldlM
      (linkChild fuel node) S := by
  induction cs generalizing S links with
  | nil => rfl
  | cons c cs ih =>
    rw [List.foldlM_cons, List.foldlM_cons, ← linkChildCounted_fst]
    cases linkChildCounted fuel node (S, links) c with
    | none => rfl
    | some r => exact ih _ _

theorem visitCounted_fst (fuel node : ℕ) (queue : List ℕ) :
    (visitCounted fuel node A queue).map Prod.fst = visit fuel node A queue := by
  unfold visitCounted visit
  cases (A.nodes node).suffixLink with
  | none => rfl
  | some link => exact linkChildrenCounted_fst fuel node 0 (_, queue) allBytes

theorem visitAllCounted_fst (fuel rounds : ℕ) {queue : List ℕ} :
    (visitAllCounted fuel rounds A queue).map Prod.fst = visitAll fuel rounds A queue := by
  induction rounds generalizing A queue with
  | zero => rfl
  | succ rounds ih =>
    cases queue with
    | nil => rfl
    | cons node queue =>
      simp only [visitAllCounted, visitAll, ← visitCounted_fst, ← ih]
      cases visitCounted fuel node A queue with
      | none => rfl
      | some r =>
        simp only [Option.map_some, Option.bind_eq_bind, Option.bind_some]
        cases visitAllCounted fuel rounds r.1.1 r.1.2 <;> rfl

/-- The counter changes nothing else. -/
theorem createCounted_fst (fuel : ℕ) (words : List (List UInt8)) :
    (createCounted fuel words).map Prod.fst = create fuel words := by
  simp only [createCounted, create, ← visitAllCounted_fst]

theorem reportCounted_fst (fuel : ℕ) (node : Option ℕ) :
    (reportCounted A text i fuel node).map Prod.fst = report A text i fuel node := by
  induction fuel generalizing node with
  | zero => cases node <;> rfl
  | succ fuel ih =>
    cases node with
    | none => rfl
    | some node =>
      simp only [reportCounted, report, ← ih]
      split_ifs
      · cases substr text ((i : ℤ) + 1 - (A.nodes node).wordLength) (A.nodes node).wordLength with
        | none => rfl
        | some w => cases reportCounted A text i fuel (A.nodes node).terminalLink <;> rfl
      · cases reportCounted A text i fuel (A.nodes node).terminalLink <;> rfl

theorem searchFromCounted_fst (fuel : ℕ) (rest : List UInt8) (i node : ℕ) :
    (searchFromCounted A fuel text rest i node).map Prod.fst = searchFrom A fuel text
      rest i node := by
  induction rest generalizing i node with
  | nil => rfl
  | cons c rest ih =>
    simp only [searchFromCounted, searchFrom, ← followCounted_fst, ← reportCounted_fst, ← ih]
    cases followCounted A c fuel node with
    | none => rfl
    | some r =>
      simp only [Option.map_some, Option.bind_eq_bind, Option.bind_some]
      cases reportCounted A text i fuel (some (((A.nodes r.1).children c).getD r.1)) with
      | none => rfl
      | some r' =>
        simp only [Option.map_some, Option.bind_some]
        cases searchFromCounted A fuel text rest (i + 1)
          (((A.nodes r.1).children c).getD r.1) <;> rfl

/-- The counters change nothing else. -/
theorem searchCounted_fst (A : Automaton) (fuel : ℕ) (text : List UInt8) :
    (A.searchCounted fuel text).map Prod.fst = A.search fuel text :=
  searchFromCounted_fst fuel text 0 0

end Automaton

/-! ### Counting -/

section Counting

variable {n node fuel i links visits : ℕ} {label : ℕ → List UInt8} {W : List (List UInt8)}
  {A : Automaton} {c : UInt8} {text rest : List UInt8} {l : List Match}

/-- Each link that is followed makes the node less deep. -/
theorem followCounted_le {j : ℕ}
    (hlinks : ∀ k < n, k ≠ 0 → (label k).length ≤ (label node).length → LinkOk n label A k)
    (hnode : node < n) (hrun : A.followCounted c fuel node = some (j, links)) :
    j < n ∧ (label j).length + links ≤ (label node).length := by
  induction fuel generalizing node links with
  | zero => cases hrun
  | succ fuel ih =>
    unfold Automaton.followCounted at hrun
    split_ifs at hrun with hcond
    · obtain ⟨k, hk, hlink, hlab⟩ := hlinks node hnode hcond.1 le_rfl
      have hlt := link_length_lt hlab
      rw [hlink] at hrun
      simp only [Option.bind_eq_bind, Option.bind_some, Option.bind_eq_some_iff, Option.pure_def,
        Option.some.injEq, Prod.mk.injEq] at hrun
      obtain ⟨⟨j', links'⟩, hrun', rfl, rfl⟩ := hrun
      obtain ⟨hj, hle⟩ := ih (fun m hm hm0 hle => hlinks m hm hm0 (hle.trans hlt.le)) hk hrun'
      exact ⟨hj, by omega⟩
    · obtain ⟨rfl, rfl⟩ := Prod.mk.inj (Option.some.inj hrun)
      exact ⟨hnode, le_rfl⟩

/-- A child pays for the links that are followed to find its own. -/
theorem linkChildCounted_le {A' : Automaton} {queue queue' : List ℕ} {x links' : ℕ}
    (h : Shape n label A) (hx : x < n) (h0 : x ≠ 0)
    (hlinks : ∀ k < n, k ≠ 0 → (label k).length ≤ (label x).length → LinkOk n label A k)
    (hfuel : (label x).length < fuel)
    (hrun : linkChildCounted fuel x ((A, queue), links) c = some ((A', queue'), links')) :
    links' ≤ links + ((childrenBy A x [c]).map fun i =>
      cost (· ∈ paths n label) (label i)).sum := by
  cases hc : (A.nodes x).children c with
  | none =>
    simp only [linkChildCounted, hc, Option.some.injEq, Prod.mk.injEq] at hrun
    exact hrun.2.ge.trans (Nat.le_add_right _ _)
  | some child =>
    obtain ⟨-, hlab⟩ := (h.child x c child hx).mp hc
    obtain ⟨k, hk, hlink, hlabk⟩ := hlinks x hx h0 le_rfl
    have hlt := link_length_lt hlabk
    have hlinksk : ∀ m < n, m ≠ 0 → (label m).length ≤ (label k).length → LinkOk n label A m :=
      fun m hm hm0 hle => hlinks m hm hm0 (hle.trans hlt.le)
    simp only [linkChildCounted, hc, hlink, Option.bind_eq_bind, Option.bind_some,
      Option.bind_eq_some_iff, Option.pure_def, Option.some.injEq,
      Prod.mk.injEq] at hrun
    obtain ⟨⟨j, more⟩, hfollow, -, rfl⟩ := hrun
    have hle := (followCounted_le hlinksk hk hfollow).2
    -- the link of the child is one character longer than the path of the node that has been found,
    -- at most
    obtain ⟨j', hj, hfollow', -, -, hnear⟩ := follow_spec (c := c) h hlinksk hk (hlt.trans hfuel)
    have hfst := followCounted_fst (A := A) (c := c) fuel k
    rw [hfollow, hfollow'] at hfst
    obtain rfl : j = j' := Option.some.inj hfst
    have hchild : linkLength (· ∈ paths n label) (label x ++ [c]) ≤ (label j).length + 1 := by
      rw [linkLength, link_append h.closed hlabk, hnear]
      cases hs : (A.nodes j).children c with
      | none => exact Nat.le_succ _
      | some s => simp [((h.child j c s hj).mp hs).2]
    have hcost : cost (· ∈ paths n label) (label child) =
        (label k).length + 1 - linkLength (· ∈ paths n label) (label x ++ [c]) := by
      rw [cost, hlab, List.dropLast_concat, linkLength_of_link hlabk]
    have hsum : (childrenBy A x [c]).map (fun i => cost (· ∈ paths n label) (label i)) =
        [cost (· ∈ paths n label) (label child)] := by simp [childrenBy, hc]
    rw [hsum, List.sum_singleton, hcost]
    omega

/-- The children pay for the links that are followed for them. -/
theorem linkChildrenCounted_le (cs : List UInt8) {A' : Automaton} {queue queue' : List ℕ}
    {x links' : ℕ} (h : Shape n label A) (hx : x < n) (h0 : x ≠ 0)
    (hlinks : ∀ k < n, k ≠ 0 → (label k).length ≤ (label x).length → LinkOk n label A k)
    (hfuel : (label x).length < fuel)
    (hrun : cs.foldlM (linkChildCounted fuel x) ((A, queue), links) = some ((A', queue'), links')) :
    links' ≤ links + ((childrenBy A x cs).map fun i => cost (· ∈ paths n label) (label i)).sum := by
  induction cs generalizing A queue links with
  | nil =>
    cases hrun
    exact Nat.le_add_right _ _
  | cons c cs ih =>
    rw [List.foldlM_cons] at hrun
    obtain ⟨⟨⟨A₁, queue₁⟩, links₁⟩, hrun₁, hrun₂⟩ := Option.bind_eq_some_iff.mp hrun
    obtain ⟨A₁', hstep, hrel, -⟩ := linkChild_spec queue c h hx h0 hlinks hfuel
    have hfst := linkChildCounted_fst (c := c) fuel x links (A, queue)
    rw [hrun₁, hstep] at hfst
    obtain ⟨rfl, rfl⟩ := Prod.mk.inj (Option.some.inj hfst)
    have hle₁ := linkChildCounted_le h hx h0 hlinks hfuel hrun₁
    have hle₂ := ih (hrel.shape h) (fun k hk hk0 hle =>
      hrel.linkOk_of_le h hx hle (hlinks k hk hk0 hle)) hrun₂
    rw [childrenBy_congr hrel] at hle₂
    rw [childrenBy_cons, List.map_append, List.sum_append]
    omega

/-- The nodes that have not been pushed. -/
def unseen (n : ℕ) (done : Finset ℕ) (queue : List ℕ) : Finset ℕ :=
  Finset.range n \ (done ∪ queue.toFinset)

theorem mem_unseen {done : Finset ℕ} {queue : List ℕ} {j : ℕ} :
    j ∈ unseen n done queue ↔ j < n ∧ j ∉ done ∧ j ∉ queue := by
  simp [unseen]

/-- One round: the nodes that are pushed pay. -/
theorem visitCounted_le {A' : Automaton} {queue queue' : List ℕ} {x : ℕ} {done : Finset ℕ}
    (h : Bfs n label W A (x :: queue) done) (hfuel : ∀ i < n, (label i).length < fuel)
    (h' : Bfs n label W A' queue' (insert x done))
    (hrun : visitCounted fuel x A queue = some ((A', queue'), links)) :
    links + ∑ i ∈ unseen n (insert x done) queue', cost (· ∈ paths n label) (label i) ≤ ∑ i ∈
      unseen n done (x :: queue), cost (· ∈ paths n label) (label i) := by
  have hx : x < n := h.lt x (Or.inr List.mem_cons_self)
  have h0 : x ≠ 0 := fun he => h.disjoint x List.mem_cons_self (he ▸ h.root)
  obtain ⟨k, -, hlink, -⟩ := h.linked x h0 (Or.inr List.mem_cons_self)
  unfold visitCounted at hrun
  simp only [hlink, Option.bind_eq_bind, Option.bind_some] at hrun
  generalize hA₁ : A.modify x (fun n => { n with terminalLink := A.terminalLinkOf k }) = A₁ at hrun
  have hshape : Shape n label A₁ :=
    hA₁ ▸ h.shape.congr rfl (A.modify_keeps x _ Node.children fun _ => rfl)
  have hlinks : ∀ m < n, m ≠ 0 → (label m).length ≤ (label x).length → LinkOk n label A₁ m :=
    fun m hm hm0 hle => hA₁ ▸ (h.linked_level hm hm0 hle).setTerminalLink x _
  have hle := linkChildrenCounted_le allBytes hshape hx h0 hlinks (hfuel x hx) hrun
  obtain ⟨A₂, hrun₂, -, -⟩ := linkChildren_spec allBytes queue hshape hx h0 hlinks (hfuel x hx)
  have hfst := linkChildrenCounted_fst fuel x 0 (A₁, queue) allBytes
  rw [hrun, hrun₂] at hfst
  obtain ⟨-, hqueue⟩ := Prod.mk.inj (Option.some.inj hfst)
  change queue' = queue ++ childrenBy A₁ x allBytes at hqueue
  generalize childrenBy A₁ x allBytes = children at hqueue hle
  subst hqueue
  obtain ⟨-, hnodup, hdisjoint⟩ := List.nodup_append'.mp h'.nodup
  -- the children have not been pushed before, and then they have
  have hsub : children.toFinset ∪ unseen n (insert x done) (queue ++ children) ⊆ unseen n done
    (x :: queue) := by
    intro i hi
    rw [Finset.mem_union, List.mem_toFinset, mem_unseen] at hi
    rw [mem_unseen]
    rcases hi with hi | ⟨hi, hdone, hqueue⟩
    · have hmem : i ∈ queue ++ children := List.mem_append_right _ hi
      have hdone := h'.disjoint i hmem
      rw [Finset.mem_insert, not_or] at hdone
      refine ⟨h'.lt i (Or.inr hmem), hdone.2, fun hq => ?_⟩
      exact hdisjoint ((List.mem_cons.mp hq).resolve_left hdone.1) hi
    · rw [Finset.mem_insert, not_or] at hdone
      rw [List.mem_append, not_or] at hqueue
      exact ⟨hi, hdone.2, fun hq => hqueue.1 ((List.mem_cons.mp hq).resolve_left hdone.1)⟩
  have hdis : Disjoint children.toFinset (unseen n (insert x done) (queue ++ children)) := by
    rw [Finset.disjoint_left]
    intro i hi hi'
    exact (mem_unseen.mp hi').2.2 (List.mem_append_right _ (List.mem_toFinset.mp hi))
  calc links + ∑ i ∈ unseen n (insert x done) (queue ++ children),
    cost (· ∈ paths n label) (label i)
      ≤ ∑ i ∈ children.toFinset, cost (· ∈ paths n label) (label i) +
          ∑ i ∈ unseen n (insert x done) (queue ++ children),
          cost (· ∈ paths n label) (label i) := by
        rw [List.sum_toFinset _ hnodup]
        omega
    _ = ∑ i ∈ children.toFinset ∪ unseen n (insert x done) (queue ++ children),
    cost (· ∈ paths n label) (label i) :=
        (Finset.sum_union hdis).symm
    _ ≤ ∑ i ∈ unseen n done (x :: queue), cost (· ∈ paths n label) (label i) :=
    Finset.sum_le_sum_of_subset hsub

/-- All rounds. -/
theorem visitAllCounted_le {A' : Automaton} {queue : List ℕ} {rounds : ℕ} {done : Finset ℕ}
    (h : Bfs n label W A queue done) (hstored : ∀ w ∈ W, w ∈ paths n label)
    (hfuel : ∀ i < n, (label i).length < fuel)
    (hrun : visitAllCounted fuel rounds A queue = some (A', links)) :
    links ≤ ∑ i ∈ unseen n done queue, cost (· ∈ paths n label) (label i) := by
  induction rounds generalizing A queue done links with
  | zero => cases hrun
  | succ rounds ih =>
    cases queue with
    | nil =>
      cases hrun
      exact Nat.zero_le _
    | cons x queue =>
      simp only [visitAllCounted, Option.bind_eq_bind, Option.bind_eq_some_iff, Option.pure_def,
        Option.some.injEq, Prod.mk.injEq] at hrun
      obtain ⟨⟨⟨A₁, queue₁⟩, links₁⟩, hrun₁, ⟨A₂, more⟩, hrun₂, rfl, rfl⟩ := hrun
      obtain ⟨A₁', queue₁', hstep, h₁⟩ := h.visit hstored hfuel
      have hfst := visitCounted_fst (A := A) fuel x queue
      rw [hrun₁, hstep] at hfst
      obtain ⟨rfl, rfl⟩ := Prod.mk.inj (Option.some.inj hfst)
      have hle := visitCounted_le h hfuel h₁ hrun₁
      have hmore := ih h₁ hrun₂
      omega

/-- A node that a terminal link leads to ends a word. -/
theorem isTerminal_of_terminalLink (h : Built n label W A) (hnode : node < n) {k : ℕ}
    (hk : (A.nodes node).terminalLink = some k) : k < n ∧ (A.nodes k).isTerminal = true := by
  have hterm := h.term node hnode
  unfold TermOk at hterm
  split at hterm
  next => rw [hk] at hterm; cases hterm
  next w hlink =>
    obtain ⟨j, hj, hlab, hlinkj⟩ := hterm
    obtain rfl : k = j := Option.some.inj (hk.symm.trans hlinkj)
    exact ⟨hj, (Bfs.isTerminal_iff h.marked hj).mpr (hlab ▸ link_mem hlink)⟩

/-- All nodes that are visited are reported, if they end words. -/
theorem reportCounted_le {o : Option ℕ} (h : Built n label W A)
    (ho : ∀ k ∈ o, k < n ∧ (A.nodes k).isTerminal = true)
    (hrun : A.reportCounted text i fuel o = some (l, visits)) : visits ≤ l.length := by
  induction fuel generalizing o l visits with
  | zero => cases o <;> cases hrun; exact le_rfl
  | succ fuel ih =>
    cases o with
    | none =>
      cases hrun
      exact le_rfl
    | some k =>
      obtain ⟨hk, hterm⟩ := ho k rfl
      unfold Automaton.reportCounted at hrun
      simp only [hterm, if_true, Option.bind_eq_bind, Option.bind_eq_some_iff, Option.pure_def,
        Option.some.injEq, Prod.mk.injEq] at hrun
      obtain ⟨w, -, ⟨l', visits'⟩, hrun', rfl, rfl⟩ := hrun
      have := ih (fun j hj => isTerminal_of_terminalLink h hk hj) hrun'
      simp only [List.length_cons]
      omega

/-- The first node that is visited may not end a word. -/
theorem reportCounted_first (h : Built n label W A) (hnode : node < n)
    (hrun : A.reportCounted text i fuel (some node) = some (l, visits)) :
    visits ≤ l.length + 1 := by
  cases hterm : (A.nodes node).isTerminal with
  | true =>
    refine (reportCounted_le h (fun k hk => ?_) hrun).trans (Nat.le_succ _)
    cases hk
    exact ⟨hnode, hterm⟩
  | false =>
    cases fuel with
    | zero => cases hrun
    | succ fuel =>
      unfold Automaton.reportCounted at hrun
      simp only [hterm, Bool.false_eq_true, if_false, Option.bind_eq_bind, Option.bind_eq_some_iff,
        Option.pure_def, Option.some.injEq, Prod.mk.injEq] at hrun
      obtain ⟨⟨l', visits'⟩, hrun', rfl, rfl⟩ := hrun
      exact Nat.succ_le_succ (reportCounted_le h (fun j hj =>
        isTerminal_of_terminalLink h hnode hj) hrun')

/-- No more links are followed than characters have been read, and each node that is visited is the
first one of a position, or it is reported. -/
theorem searchFromCounted_le (h : Built n label W A) (hnode : node < n)
    (hrun : A.searchFromCounted fuel text rest i node = some (l, links, visits)) :
    links ≤ (label node).length + rest.length ∧ visits ≤ rest.length + l.length := by
  induction rest generalizing i node l links visits with
  | nil =>
    cases hrun
    exact ⟨Nat.zero_le _, Nat.zero_le _⟩
  | cons c rest ih =>
    simp only [Automaton.searchFromCounted, Option.bind_eq_bind, Option.bind_eq_some_iff,
      Option.pure_def, Option.some.injEq, Prod.mk.injEq] at hrun
    obtain ⟨⟨j, links₁⟩, hfollow, ⟨l₁, visits₁⟩, hreport, ⟨l₂, links₂, visits₂⟩, hlater, rfl,
      rfl, rfl⟩ := hrun
    obtain ⟨hj, hdepth⟩ := followCounted_le (fun k hk hk0 _ => h.linked k hk hk0) hnode hfollow
    -- the character makes the node one deeper, if it is consumed
    obtain ⟨hnext, hdeeper⟩ : ((A.nodes j).children c).getD j < n ∧
        (label (((A.nodes j).children c).getD j)).length ≤ (label j).length + 1 := by
      cases hc : (A.nodes j).children c with
      | none => exact ⟨hj, Nat.le_succ _⟩
      | some k =>
        obtain ⟨hk, hlab⟩ := (h.shape.child j c k hj).mp hc
        exact ⟨hk, by simp [hlab]⟩
    dsimp only at hreport hlater
    generalize ((A.nodes j).children c).getD j = next at hreport hlater hnext hdeeper
    obtain ⟨hlinks, hvisits⟩ := ih hnext hlater
    have hvisits₁ := reportCounted_first h hnext hreport
    simp only [List.length_cons, List.length_append]
    omega

end Counting

/-- Along the words, the nodes pay for no more links than there are characters. -/
theorem sum_cost_nodes_le {n : ℕ} {label : ℕ → List UInt8} {A : Automaton}
    {words : List (List UInt8)} {F : Finset ℕ} (h : Shape n label A) (hF : ∀ i ∈ F, i < n ∧ i ≠ 0)
    (hwords : ∀ u ∈ paths n label, u = [] ∨ ∃ w ∈ words, u <+: w) :
    ∑ i ∈ F, cost (· ∈ paths n label) (label i) ≤ (words.map List.length).sum := by
  have hinj : Set.InjOn label (F : Set ℕ) :=
    fun i hi j hj hlab => h.inj i j (hF i hi).1 (hF j hj).1 hlab
  rw [← Finset.sum_image (f := cost (· ∈ paths n label)) hinj]
  refine sum_cost_le h.closed h.nil_mem fun u hu => ?_
  obtain ⟨i, hi, rfl⟩ := Finset.mem_image.mp hu
  have hne : label i ≠ [] := fun hnil =>
    (hF i hi).2 (h.inj i 0 (hF i hi).1 h.pos (hnil.trans h.root.symm))
  exact ⟨hne, (hwords _ (Shape.label_mem (hF i hi).1)).resolve_left hne⟩

/-- `Create` follows at most as many suffix links as the words have characters, however they share
prefixes. -/
theorem create_linear (words : List (List UInt8)) (hw : ∀ w ∈ words, w.length < 2 ^ 31) (fuel : ℕ)
    (hfuel : (words.map List.length).sum < fuel) :
    ∃ A links, createCounted fuel words = some (A, links) ∧ create fuel words = some A ∧
      links ≤ (words.map List.length).sum := by
  obtain ⟨A, n, label, hcreate, -⟩ := create_built hw hfuel
  have hfst := createCounted_fst fuel words
  rw [hcreate] at hfst
  obtain ⟨⟨A', links⟩, hcounted, rfl⟩ := Option.map_eq_some_iff.mp hfst
  refine ⟨A', links, hcounted, hcreate, ?_⟩
  obtain ⟨label, hb, hsize, hpaths⟩ := Building.ofWords hw
  obtain ⟨A₁, queue, hinit, hbfs⟩ := bfs_init hb
  simp only [createCounted, hinit] at hcounted
  have hfuel' : ∀ i < (words.foldl addWord Automaton.new).size, (label i).length < fuel :=
    fun i hi => (length_lt_size hb.shape hi).trans_le (by omega)
  refine (visitAllCounted_le hbfs hb.stored hfuel' hcounted).trans
    (sum_cost_nodes_le hb.shape (fun i hi => ?_) fun u hu => (hpaths u).mp hu)
  obtain ⟨hi, h0, -⟩ := mem_unseen.mp hi
  exact ⟨hi, fun he => h0 (Finset.mem_singleton.mpr he)⟩

/-- The words "he" and "she". -/
theorem create_linear_she :
    ∃ A links, createCounted 6 [[104, 101], [115, 104, 101]] = some (A, links) ∧
      create 6 [[104, 101], [115, 104, 101]] = some A ∧ links ≤ 5 :=
  create_linear [[104, 101], [115, 104, 101]] (by decide) 6 (by decide)

/-- A search in an automaton with its links ends. -/
theorem exists_search {n fuel : ℕ} {label : ℕ → List UInt8} {W : List (List UInt8)} {A : Automaton}
    (h : Built n label W A) (hfuel : n ≤ fuel) (text : List UInt8) :
    ∃ l, A.search fuel text = some l := by
  have hnear : nearest (· ∈ paths n label) (text.take 0) = some (label 0) := by
    rw [List.take_zero, h.shape.root]
    exact nearest_of_mem h.shape.nil_mem
  exact ⟨_, searchFrom_spec h h.shape.pos (Nat.zero_add _) rfl hnear fun i hi =>
    (length_lt_size h.shape hi).trans_le hfuel⟩

/-- `Search` follows at most as many suffix links as the text has characters, and the loop that
reports visits at most one node for each character and one for each match. -/
theorem search_linear (words : List (List UInt8)) (hw : ∀ w ∈ words, w.length < 2 ^ 31) (fuel : ℕ)
    (hfuel : (words.map List.length).sum < fuel) :
    ∃ A, create fuel words = some A ∧
      ∀ text, ∃ l links visits, A.searchCounted fuel text = some (l, links, visits) ∧
      A.search fuel text = some l ∧ links ≤ text.length ∧
      visits ≤ text.length + l.length := by
  obtain ⟨A, n, label, hcreate, hn, hbuilt⟩ := create_built hw hfuel
  refine ⟨A, hcreate, fun text => ?_⟩
  obtain ⟨l, hl⟩ := exists_search hbuilt hn text
  have hrun := searchCounted_fst A fuel text
  rw [hl] at hrun
  obtain ⟨⟨l', links, visits⟩, hcounted, rfl⟩ := Option.map_eq_some_iff.mp hrun
  obtain ⟨hlinks, hvisits⟩ := searchFromCounted_le hbuilt hbuilt.shape.pos hcounted
  rw [hbuilt.shape.root] at hlinks
  exact ⟨l', links, visits, hcounted, hl, by simpa using hlinks, hvisits⟩

/-- The words "he" and "she". -/
theorem search_linear_she :
    ∃ A, create 6 [[104, 101], [115, 104, 101]] = some A ∧ ∀ text, ∃ l links visits,
      A.searchCounted 6 text = some (l, links, visits) ∧ A.search 6 text = some l ∧
      links ≤ text.length ∧ visits ≤ text.length + l.length :=
  search_linear [[104, 101], [115, 104, 101]] (by decide) 6 (by decide)

end TinyPointerTrees.AhoCorasick
