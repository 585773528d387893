import TinyPointerTrees.Art.Alone
import TinyPointerTrees.Art.Retirement
import TinyPointerTrees.Art.Runs

/-!
# Nothing is freed that a thread may still read

What a thread read (`Reading`), and what the epochs say about the slots it holds
(`Epochs`): a slot that it holds and that another thread marks for deletion is in a
label that is not older than its epoch. A thread that cleans up has looked at this
epoch, or is still about to, and so does not take the label for older than all.

`Reach.reclamation_safe` — a slot that is freed is held by no thread.
-/

namespace TinyPointerTrees.Art.Reclamation

variable {X : ℕ → BucketIndexer} {root : Ref} {startGCThreshhold : ℕ} {s s' : World} {t : ℕ}
  {n : Ref} {r : Thread}

/-- The thread is inside a call. -/
def Phase.inside : Phase → Bool
  | .reading | .holding _ _ | .both _ _ _ | .writing _ | .leaving | .cleaning => true
  | _ => false

/-- The thread has no locks, and is not in a loop of the cleanup. -/
def Phase.Calm : Phase → Prop
  | .idle | .entering _ | .reading | .leaving | .cleaning | .withdrawn => True
  | _ => False

namespace Phase.Calm

variable (h : r.phase.Calm)
include h

theorem todo : r.todo = [] := by
  unfold Thread.todo
  split
  · rename_i hp
    rw [hp] at h
    exact h.elim
  · rfl

theorem current : r.current = [] := by
  unfold Thread.current
  split
  · rename_i hp
    rw [hp] at h
    exact h.elim
  · rfl

theorem labels : r.labels = r.deletionList.labels := by
  unfold Thread.labels
  split
  · rename_i hp
    rw [hp] at h
    exact h.elim
  · rfl

theorem not_owns : ¬r.Owns X n := by
  unfold Thread.Owns
  split
  all_goals first
    | exact not_false
    | rename_i hp; rw [hp] at h; exact h.elim

end Phase.Calm

/-! ### What a thread read -/

variable (root) in
/-- What a thread read is still so where the lock word is still the same. -/
structure Thread.Reading (s : World) (r : Thread) : Prop where
  outside : r.phase.inside = false → r.versions = [] ∧ r.links = [] ∧ r.held = []
  held : ∀ x ∈ r.held, x ∈ s.live
  versions : ∀ e ∈ r.versions, (e.1 = root ∨ e.1 ∈ r.held) ∧ Free e.2 ∧
    age e.1 e.2 ≤ age e.1 (s.node e.1).word
  links : ∀ l ∈ r.links, (l.node, l.v) ∈ r.versions ∧ ((s.node l.node).word = l.v →
    (s.node l.node).child l.key = l.child ∧ age l.node l.v < 2 ^ 62)
  holding : ∀ n v, r.phase = .holding n v → ∀ l ∈ r.links, l.node = n → l.v = v →
    (s.node n).child l.key = l.child
  both : ∀ n k p, r.phase = .both n k p → (s.node n).child k = some p

/-- What others do to the nodes that are allocated: a lock word gets on, and what is not locked
keeps its children. -/
structure Advances (s s' : World) : Prop where
  word : ∀ n ∈ s.live, (s'.node n).word = (s.node n).word ∨
    age n (s.node n).word < age n (s'.node n).word
  child : ∀ n ∈ s.live, (s'.node n).child = (s.node n).child ∨ ¬Free (s'.node n).word

theorem Advances.of_eq (h : s'.node = s.node) : Advances s s' :=
  ⟨fun n _ => .inl (by rw [h]), fun n _ => .inl (by rw [h])⟩

/-- What is built was not allocated. -/
theorem Advances.of_fresh (h : ∀ n ∈ s.live, s'.node n = s.node n) : Advances s s' :=
  ⟨fun n hn => .inl (by rw [h n hn]), fun n hn => .inl (by rw [h n hn])⟩

/-- A lock word is increased. -/
theorem Advances.of_word {d : UInt64}
    (h : s'.node = Function.update s.node n { s.node n with word := (s.node n).word + d })
    (hage : age n (s.node n).word < age n ((s.node n).word + d)) : Advances s s' := by
  constructor
  all_goals
    intro m _
    rw [h]
    by_cases hm : m = n
  · subst hm
    rw [Function.update_self]
    exact .inr hage
  · rw [Function.update_of_ne hm]
    exact .inl rfl
  · subst hm
    rw [Function.update_self]
    exact .inl rfl
  · rw [Function.update_of_ne hm]
    exact .inl rfl

/-- A node that is locked gets a child. -/
theorem Advances.of_child {k : UInt8} {q : Ptr}
    (h : s'.node = Function.update s.node n ((s.node n).setChild k q))
    (hw : ¬Free (s.node n).word) : Advances s s' := by
  constructor
  all_goals
    intro m _
    rw [h]
    by_cases hm : m = n
  · subst hm
    rw [Function.update_self]
    exact .inl rfl
  · rw [Function.update_of_ne hm]
    exact .inl rfl
  · subst hm
    rw [Function.update_self]
    exact .inr hw
  · rw [Function.update_of_ne hm]
    exact .inl rfl

namespace Thread.Reading

theorem mem_live (h : r.Reading root s) (hroot : root ∈ s.live) {e : Ref × UInt64}
    (he : e ∈ r.versions) : e.1 ∈ s.live := by
  rcases (h.versions e he).1 with heq | hheld
  · rw [heq]
    exact hroot
  · exact h.held _ hheld

/-- What the others do leaves it so. -/
theorem mono (h : r.Reading root s) (hroot : root ∈ s.live) (ha : Advances s s')
    (hlive : ∀ x ∈ r.held, x ∈ s'.live)
    (howned : ∀ n, r.Owns X n → (s'.node n).child = (s.node n).child) : r.Reading root s' := by
  refine ⟨h.outside, hlive, fun e he => ?_, fun l hl => ?_, fun n v hp l hl hn hv => ?_,
    fun n k p hp => ?_⟩
  · obtain ⟨h₁, h₂, h₃⟩ := h.versions e he
    refine ⟨h₁, h₂, ?_⟩
    rcases ha.word e.1 (h.mem_live hroot he) with heq | hlt
    · rwa [heq]
    · exact h₃.trans hlt.le
  · obtain ⟨hmem, hl⟩ := h.links l hl
    refine ⟨hmem, fun hw => ?_⟩
    obtain ⟨-, hfree, hage⟩ := h.versions _ hmem
    have hn := h.mem_live hroot hmem
    rcases ha.word l.node hn with heq | hlt
    · rw [heq] at hw
      rcases ha.child l.node hn with hc | hnot
      · rw [hc]
        exact hl hw
      · rw [heq, hw] at hnot
        exact absurd hfree hnot
    · rw [hw] at hlt
      exact absurd hlt (Nat.not_lt.2 hage)
  · rw [howned n (by unfold Owns; rw [hp])]
    exact h.holding n v hp l hl hn hv
  · rw [howned n (by unfold Owns; rw [hp]; exact .inl rfl)]
    exact h.both n k p hp

/-- The thread goes on elsewhere in its call, or it forgets. -/
theorem goto (h : r.Reading root s) {r' : Thread}
    (hr : r'.versions = r.versions ∧ r'.links = r.links ∧ r'.held = r.held ∨ r'.versions = [] ∧
      r'.links = [] ∧ r'.held = [])
    (hout : r'.phase.inside = false → r'.versions = [] ∧ r'.links = [] ∧ r'.held = [])
    (hholding : ∀ n v, r'.phase ≠ .holding n v) (hboth : ∀ n k p, r'.phase ≠ .both n k p) :
    r'.Reading root s := by
  rcases hr with ⟨hv, hl, hh⟩ | ⟨hv, hl, hh⟩
  · refine ⟨hout, ?_, ?_, ?_, fun n v hp => absurd hp (hholding n v), fun n k p hp =>
      absurd hp (hboth n k p)⟩
    · rw [hh]
      exact h.held
    · rw [hv, hh]
      exact h.versions
    · rw [hl, hv]
      exact h.links
  · refine ⟨fun _ => ⟨hv, hl, hh⟩, ?_, ?_, ?_, fun n v hp => absurd hp (hholding n v),
      fun n k p hp => absurd hp (hboth n k p)⟩
    · rw [hh]
      exact fun x hx => (List.not_mem_nil hx).elim
    · rw [hv]
      exact fun x hx => (List.not_mem_nil hx).elim
    · rw [hl]
      exact fun x hx => (List.not_mem_nil hx).elim

end Thread.Reading

/-! ### Epochs -/

/-- `localEpoche` of a thread. -/
abbrev Thread.localEpoche (r : Thread) : UInt64 := r.deletionList.localEpoche

/-- A slot is in a label. -/
def InLabel (X : ℕ → BucketIndexer) (l : LabelDelete .olc) (x : Ref) : Prop :=
  ∃ p ∈ l.nodes, target X p = x

variable (X) in
/-- What the epochs say about the slots that threads hold. -/
structure Epochs (s : World) : Prop where
  registered : ∀ t, (s.thread t).phase ≠ .idle → t ∈ s.threads
  entering : ∀ t e, (s.thread t).phase = .entering e → e.toNat ≤ s.currentEpoche.toNat
  inside : ∀ t, (s.thread t).phase.inside = true →
    (s.thread t).localEpoche.toNat ≤ s.currentEpoche.toNat
  label : ∀ t, ∀ l ∈ (s.thread t).labels, l.epoche.toNat ≤ s.currentEpoche.toNat
  /-- A label is not older than the threads that hold one of its slots. -/
  safe : ∀ t u x, x ∈ (s.thread t).held → ∀ l ∈ (s.thread u).labels, InLabel X l x →
    (s.thread t).localEpoche.toNat ≤ l.epoche.toNat
  current : ∀ t u, ∀ p ∈ (s.thread u).current, target X p ∉ (s.thread t).held
  /-- A thread that cleans up has looked at the threads that hold one of its slots, or is about
  to. -/
  scanning : ∀ t u x rest e, x ∈ (s.thread t).held → x ∈ (s.thread u).retired X →
    (s.thread u).phase = .scanning rest e → t ∈ rest ∨ e.toNat ≤ (s.thread t).localEpoche.toNat
  freeing : ∀ t u x e kept nodes rest, x ∈ (s.thread t).held → x ∈ (s.thread u).retired X →
    (s.thread u).phase = .freeing e kept nodes rest → e.toNat ≤ (s.thread t).localEpoche.toNat

theorem mem_retired_of_label {l : LabelDelete .olc} {x : Ref} (hl : l ∈ r.labels)
    (hx : InLabel X l x) : x ∈ r.retired X := by
  obtain ⟨p, hp, rfl⟩ := hx
  refine List.mem_map_of_mem (List.mem_append_right _ (List.mem_append_right _ ?_))
  exact List.mem_flatMap.2 ⟨l, hl, hp⟩

theorem mem_retired_of_current {p : Ptr} (hp : p ∈ r.current) : target X p ∈ r.retired X :=
  List.mem_map_of_mem (List.mem_append_right _ (List.mem_append_left _ hp))

/-- A step of one thread. What it holds it held before, in the same epoch, or it is not retired. -/
theorem Epochs.step (h : Epochs X s) (hthread : s'.thread = Function.update s.thread t r)
    (hepoche : s.currentEpoche.toNat ≤ s'.currentEpoche.toNat)
    (hthreads : ∀ u ∈ s.threads, u ∈ s'.threads) (hregistered : r.phase ≠ .idle → t ∈ s'.threads)
    (hentering : ∀ e, r.phase = .entering e → e.toNat ≤ s'.currentEpoche.toNat)
    (hinside : r.phase.inside = true → r.localEpoche.toNat ≤ s'.currentEpoche.toNat)
    (hheld : ∀ x ∈ r.held, x ∈ (s.thread t).held ∧ r.localEpoche = (s.thread t).localEpoche ∨
      x ∉ r.retired X ∧ ∀ u, x ∉ (s.thread u).retired X)
    (hlabel : ∀ l ∈ r.labels, l.epoche.toNat ≤ s'.currentEpoche.toNat ∧
      ∀ u, ∀ x ∈ (s.thread u).held, InLabel X l x → (s.thread u).localEpoche.toNat ≤ l.epoche.toNat)
    (hcurrent : ∀ p ∈ r.current, ∀ u, target X p ∉ (s.thread u).held)
    (hscanning : ∀ rest e, r.phase = .scanning rest e → ∀ u, ∀ x ∈ (s.thread u).held,
      x ∈ r.retired X → u ∈ rest ∨ e.toNat ≤ (s.thread u).localEpoche.toNat)
    (hfreeing : ∀ e kept nodes rest, r.phase = .freeing e kept nodes rest →
      ∀ u, ∀ x ∈ (s.thread u).held, x ∈ r.retired X → e.toNat ≤ (s.thread u).localEpoche.toNat) :
    Epochs X s' := by
  have hother : ∀ u, u ≠ t → s'.thread u = s.thread u :=
    fun u hu => by rw [hthread, Function.update_of_ne hu]
  have hself : s'.thread t = r := by rw [hthread, Function.update_self]
  -- What a thread holds, as it was before.
  have hwas : ∀ u, ∀ x ∈ (s'.thread u).held,
      x ∈ (s.thread u).held ∧ (s'.thread u).localEpoche = (s.thread u).localEpoche ∨
      ∀ v, x ∉ (s'.thread v).retired X := by
    intro u x hx
    by_cases hu : u = t
    · subst hu
      rw [hself] at hx ⊢
      refine (hheld x hx).imp_right fun ⟨hr, hnone⟩ v => ?_
      by_cases hv : v = u
      · rw [hv, hself]
        exact hr
      · rw [hother v hv]
        exact hnone v
    · rw [hother u hu] at hx ⊢
      exact .inl ⟨hx, rfl⟩
  refine ⟨fun u hu => ?_, fun u e hu => ?_, fun u hu => ?_, fun u l hl => ?_,
    fun u v x hx l hl hin => ?_, fun u v p hp hx => ?_, fun u v x rest e hx hr hp => ?_,
    fun u v x e kept nodes rest hx hr hp => ?_⟩
  · by_cases hut : u = t
    · subst hut
      rw [hself] at hu
      exact hregistered hu
    · rw [hother u hut] at hu
      exact hthreads u (h.registered u hu)
  · by_cases hut : u = t
    · subst hut
      rw [hself] at hu
      exact hentering e hu
    · rw [hother u hut] at hu
      exact (h.entering u e hu).trans hepoche
  · by_cases hut : u = t
    · subst hut
      rw [hself] at hu ⊢
      exact hinside hu
    · rw [hother u hut] at hu ⊢
      exact (h.inside u hu).trans hepoche
  · by_cases hut : u = t
    · subst hut
      rw [hself] at hl
      exact (hlabel l hl).1
    · rw [hother u hut] at hl
      exact (h.label u l hl).trans hepoche
  · rcases hwas u x hx with ⟨hx, heq⟩ | hnone
    · rw [heq]
      by_cases hvt : v = t
      · subst hvt
        rw [hself] at hl
        exact (hlabel l hl).2 u x hx hin
      · rw [hother v hvt] at hl
        exact h.safe u v x hx l hl hin
    · exact absurd (mem_retired_of_label hl hin) (hnone v)
  · rcases hwas u _ hx with ⟨hx, -⟩ | hnone
    · by_cases hvt : v = t
      · subst hvt
        rw [hself] at hp
        exact hcurrent p hp u hx
      · rw [hother v hvt] at hp
        exact h.current u v p hp hx
    · exact hnone v (mem_retired_of_current hp)
  · rcases hwas u x hx with ⟨hx, heq⟩ | hnone
    · rw [heq]
      by_cases hvt : v = t
      · subst hvt
        rw [hself] at hr hp
        exact hscanning rest e hp u x hx hr
      · rw [hother v hvt] at hr hp
        exact h.scanning u v x rest e hx hr hp
    · exact absurd hr (hnone v)
  · rcases hwas u x hx with ⟨hx, heq⟩ | hnone
    · rw [heq]
      by_cases hvt : v = t
      · subst hvt
        rw [hself] at hr hp
        exact hfreeing e kept nodes rest hp u x hx hr
      · rw [hother v hvt] at hr hp
        exact h.freeing u v x e kept nodes rest hx hr hp
    · exact absurd hr (hnone v)

/-- A step of one thread that does not change its labels, and is not part of the cleanup. -/
theorem Epochs.calm (h : Epochs X s) (hthread : s'.thread = Function.update s.thread t r)
    (hepoche : s.currentEpoche.toNat ≤ s'.currentEpoche.toNat)
    (hthreads : ∀ u ∈ s.threads, u ∈ s'.threads) (hregistered : r.phase ≠ .idle → t ∈ s'.threads)
    (hentering : ∀ e, r.phase = .entering e → e.toNat ≤ s'.currentEpoche.toNat)
    (hinside : r.phase.inside = true → r.localEpoche.toNat ≤ s'.currentEpoche.toNat)
    (hheld : ∀ x ∈ r.held, x ∈ (s.thread t).held ∧ r.localEpoche = (s.thread t).localEpoche ∨
      x ∉ r.retired X ∧ ∀ u, x ∉ (s.thread u).retired X)
    (hlabels : r.labels = (s.thread t).labels) (hcurrent : r.current = [])
    (hscanning : ∀ rest e, r.phase ≠ .scanning rest e)
    (hfreeing : ∀ e kept nodes rest, r.phase ≠ .freeing e kept nodes rest) : Epochs X s' := by
  refine h.step hthread hepoche hthreads hregistered hentering hinside hheld (fun l hl => ?_)
    (fun p hp => ?_) (fun rest e hp => absurd hp (hscanning rest e)) fun e kept nodes rest hp =>
    absurd hp (hfreeing e kept nodes rest)
  · rw [hlabels] at hl
    exact ⟨(h.label t l hl).trans hepoche, fun u x hx => h.safe u t x hx l hl⟩
  · rw [hcurrent] at hp
    cases hp

/-- The thread goes on in its call. -/
theorem Epochs.goOn (h : Epochs X s) {ph : Phase}
    (hthread : s'.thread = Function.update s.thread t { s.thread t with phase := ph })
    (hepoche : s'.currentEpoche = s.currentEpoche) (hthreads : s'.threads = s.threads)
    (hin : (s.thread t).phase.inside = true) (hto : ph.inside = true)
    (hlabels : (s.thread t).deletionList.labels = (s.thread t).labels) : Epochs X s' := by
  have hidle : (s.thread t).phase ≠ .idle := by
    intro hp
    rw [hp] at hin
    cases hin
  have hne : ∀ ph' : Phase, ph'.inside = false → ph ≠ ph' := by
    rintro ph' hout rfl
    rw [hto] at hout
    cases hout
  have hquiet : Thread.labels { s.thread t with phase := ph } = (s.thread t).deletionList.labels ∧
      Thread.current { s.thread t with phase := ph } = [] := by
    cases ph with
    | freeing => exact absurd rfl (hne _ rfl)
    | _ => exact ⟨rfl, rfl⟩
  refine h.calm hthread (by rw [hepoche]) (fun u hu => hthreads ▸ hu) (fun _ =>
    hthreads ▸ h.registered t hidle) (fun e he => absurd he (hne _ rfl)) (fun _ => ?_) (fun x hx =>
    .inl ⟨hx, rfl⟩) (hquiet.1.trans hlabels) hquiet.2 (fun _ _ => hne _ rfl) fun _ _ _ _ =>
    hne _ rfl
  rw [hepoche]
  exact h.inside t hin

/-! ### The invariant -/

variable (X root) in
/-- The invariant. -/
structure Inv (s : World) : Prop where
  locking : Locking X s
  graph : Graph X root s
  reading : ∀ t, (s.thread t).Reading root s
  epochs : Epochs X s
  counted : s.currentEpoche.toNat = s.increments

namespace Inv

theorem initial : Inv X root (.initial root) := by
  have hword : ¬isObsolete ((World.initial root).node root).word = true :=
    not_isObsolete_of_free (free_newWord _)
  have hnone : ∀ n k z, ¬(World.initial root).Child X n k z := by
    rintro n k z ⟨p, hp, -⟩
    cases hp
  refine ⟨⟨fun t n ho => ho.elim, fun t n ho => ho.elim, fun t u n ho => ho.elim,
    fun t n ho => ho.elim, fun n _ => Node.sound_new rfl (Nat.two_pow_pos 32), fun t =>
    ⟨trivial, fun n k p hp => (nomatch hp)⟩⟩, ?_, fun t => ?_, ?_, rfl⟩
  · refine ⟨⟨Finset.mem_singleton_self root, fun t hd => hd.elim hword List.not_mem_nil⟩,
      fun n k z _ hc => absurd hc (hnone n k z), fun n m k j z _ _ hc =>
      absurd hc (hnone n k z), ?_, ?_, fun t => List.nodup_nil, fun t x hx =>
      absurd hx List.not_mem_nil, fun t u x hx => absurd hx List.not_mem_nil,
      fun t n k x _ hc => absurd hc (hnone n k x)⟩
    · rintro t n k y ⟨q, hq, -⟩
      cases hq
    · rintro t u n m k j y ⟨q, hq, -⟩
      cases hq
  · exact ⟨fun _ => ⟨rfl, rfl, rfl⟩, fun x hx => absurd hx List.not_mem_nil, fun e he =>
      absurd he List.not_mem_nil, fun l hl => absurd hl List.not_mem_nil, fun n v hp =>
      (nomatch hp), fun n k p hp => (nomatch hp)⟩
  · exact ⟨fun t ht => absurd rfl ht, fun t e hp => (nomatch hp), fun t hp => (nomatch hp),
      fun t l hl => absurd hl List.not_mem_nil, fun t u x hx => absurd hx List.not_mem_nil,
      fun t u p hp => absurd hp List.not_mem_nil, fun t u x rest e hx => absurd hx List.not_mem_nil,
      fun t u x e kept nodes rest hx => absurd hx List.not_mem_nil⟩

/-- The children that others have read are as they were. -/
theorem reading_of (h : Inv X root s) (hthread : s'.thread = Function.update s.thread t r)
    (ha : Advances s s') (hlive : ∀ u, u ≠ t → ∀ x ∈ (s.thread u).held, x ∈ s'.live)
    (howned : ∀ u, u ≠ t → ∀ n, (s.thread u).Owns X n → (s'.node n).child = (s.node n).child)
    (hr : r.Reading root s') (u : ℕ) : (s'.thread u).Reading root s' := by
  rw [hthread]
  by_cases hu : u = t
  · subst hu
    rwa [Function.update_self]
  · rw [Function.update_of_ne hu]
    exact (h.reading u).mono h.graph.standing_root.1 ha (hlive u hu) (howned u hu)

/-- A step of one thread that leaves the nodes as they are, and what is retired. -/
theorem calm (h : Inv X root s) (hthread : s'.thread = Function.update s.thread t r)
    (hnode : s'.node = s.node) (hlive : s'.live = s.live)
    (hcounted : s'.currentEpoche.toNat = s'.increments) (htodo : (s.thread t).todo = [])
    (hr : r.todo = []) (howns : ∀ n, r.Owns X n → (s.thread t).Owns X n)
    (hfirst : ∀ n, r.OwnsFirst n → (s.thread t).OwnsFirst n)
    (hboth : ∀ n k p, r.phase ≠ .both n k p)
    (hretired : (r.retired X).Perm ((s.thread t).retired X)) (hreading : r.Reading root s)
    (hepochs : Epochs X s') : Inv X root s' := by
  have hnode' : ∀ n ∈ s'.live, (s'.node n).Sound n := by
    rw [hlive, hnode]
    exact h.locking.node
  have hsound : r.Sound X := ⟨by rw [hr]; trivial, fun n k p hp => absurd hp (hboth n k p)⟩
  refine ⟨h.locking.quiet hthread (fun n _ => by rw [hnode]) hnode' (fun u n ho => ?_) howns
    hfirst hsound, ?_, h.reading_of hthread (.of_eq hnode) (fun u _ x hx => ?_)
    (fun u _ n _ => by rw [hnode]) ?_, hepochs, hcounted⟩
  · rw [hlive]
    exact h.locking.live u n ho
  · refine h.graph.congr hthread hlive (fun n => by rw [hnode])
      (fun n => by rw [hnode]; exact id) (fun n => ?_)
      (fun n k q => by rw [hr, htodo]) hretired
    unfold World.DoomedBy
    rw [hnode, hr, htodo]
  · rw [hlive]
    exact (h.reading u).held x hx
  · exact hreading.mono h.graph.standing_root.1 (.of_eq hnode) (fun x hx =>
      hlive ▸ hreading.held x hx) (X := X) fun n _ => by rw [hnode]

/-! ### Entering and leaving -/

theorem register (h : Inv X root s) (he : Enabled X root startGCThreshhold s t .register) :
    Inv X root (after X s t .register) := by
  obtain ⟨hp, -⟩ := he
  have hthread : (after X s t .register).thread = Function.update s.thread t (s.thread t) :=
    (Function.update_eq_self t s.thread).symm
  have htodo : (s.thread t).todo = [] := by rw [Thread.todo, hp]
  refine h.calm hthread rfl rfl h.counted htodo htodo (fun _ => id) (fun _ => id)
    (fun n k p => by rw [hp]; exact Phase.noConfusion) (.refl _) (h.reading t) ?_
  refine h.epochs.calm hthread le_rfl (fun u hu => List.mem_append_left _ hu) (fun hne =>
    absurd hp hne) (fun e he => ?_) (fun hin => ?_) (fun x hx => .inl ⟨hx, rfl⟩) rfl
    (by rw [Thread.current, hp]) (fun rest e he => ?_)
    fun e kept nodes rest he => ?_
  all_goals
    rw [hp] at *
    contradiction

/-- Outside of its calls a thread holds nothing. -/
theorem outside (h : Inv X root s) (hp : (s.thread t).phase.inside = false) {r : Thread}
    (hr : r.versions = (s.thread t).versions ∧ r.links = (s.thread t).links ∧
      r.held = (s.thread t).held ∨ r.versions = [] ∧ r.links = [] ∧ r.held = []) :
    r.versions = [] ∧ r.links = [] ∧ r.held = [] := by
  rcases hr with ⟨hv, hl, hh⟩ | hr
  · obtain ⟨h₁, h₂, h₃⟩ := (h.reading t).outside hp
    exact ⟨hv.trans h₁, hl.trans h₂, hh.trans h₃⟩
  · exact hr

theorem inside_of_held (h : Inv X root s) {x : Ref} (hx : x ∈ (s.thread t).held) :
    (s.thread t).phase.inside = true := by
  rw [← Bool.not_eq_false]
  intro hout
  rw [((h.reading t).outside hout).2.2] at hx
  cases hx

/-- A step to where the thread has no locks: it goes on in its call, or forgets what it read. -/
theorem goto (h : Inv X root s) {r : Thread} (hthread : s'.thread = Function.update s.thread t r)
    (hnode : s'.node = s.node) (hlive : s'.live = s.live)
    (hepoche : s.currentEpoche.toNat ≤ s'.currentEpoche.toNat)
    (hcounted : s'.currentEpoche.toNat = s'.increments) (hthreads : s'.threads = s.threads)
    (htodo : (s.thread t).todo = []) (hcurrent : (s.thread t).current = []) (hcalm : r.phase.Calm)
    (hlabels : r.deletionList.labels = (s.thread t).labels)
    (hregistered : r.phase ≠ .idle → t ∈ s.threads)
    (hentering : ∀ e, r.phase = .entering e → e.toNat ≤ s'.currentEpoche.toNat)
    (hinside : r.phase.inside = true → r.localEpoche.toNat ≤ s'.currentEpoche.toNat)
    (hread : r.versions = (s.thread t).versions ∧ r.links = (s.thread t).links ∧
      r.held = (s.thread t).held ∨ r.versions = [] ∧ r.links = [] ∧ r.held = [])
    (hout : r.phase.inside = false → r.versions = [] ∧ r.links = [] ∧ r.held = [])
    (hlocal : r.held = [] ∨ r.localEpoche = (s.thread t).localEpoche) : Inv X root s' := by
  have hretired : r.retired X = (s.thread t).retired X := by
    unfold Thread.retired
    rw [hcalm.todo, hcalm.current, hcalm.labels, hlabels, htodo, hcurrent]
  have hne : ∀ ph : Phase, ¬ph.Calm → r.phase ≠ ph := by
    rintro ph hph rfl
    exact hph hcalm
  refine h.calm hthread hnode hlive hcounted htodo hcalm.todo (fun n ho => absurd ho hcalm.not_owns)
    (fun n ho => absurd (Thread.owns_of_first ho) (hcalm.not_owns (X := X))) (fun n k p =>
    hne _ not_false) (.of_eq hretired) ((h.reading t).goto hread hout (fun n v => hne _ not_false)
    fun n k p => hne _ not_false) ?_
  refine h.epochs.calm hthread hepoche (fun u hu => hthreads ▸ hu) (fun hr =>
    hthreads ▸ hregistered hr) hentering hinside (fun x hx => .inl ?_) (hcalm.labels.trans hlabels)
    hcalm.current (fun rest e => hne _ not_false) fun e kept nodes rest => hne _ not_false
  rcases hread with ⟨-, -, hh⟩ | ⟨-, -, hh⟩
  · rw [hh] at hx
    refine ⟨hx, hlocal.resolve_left fun h₀ => ?_⟩
    rw [← hh, h₀] at hx
    cases hx
  · rw [hh] at hx
    cases hx

theorem unregister (h : Inv X root s) (he : Enabled X root startGCThreshhold s t .unregister) :
    Inv X root (after X s t .unregister) := by
  obtain ⟨hp, -⟩ := he
  have hcalm : (s.thread t).phase.Calm := by rw [hp]; trivial
  obtain ⟨hv, hl, hh⟩ := (h.reading t).outside (by rw [hp]; rfl)
  exact h.goto rfl rfl rfl le_rfl h.counted rfl hcalm.todo hcalm.current hcalm hcalm.labels.symm
    (fun hne => absurd hp hne) (fun e he => by rw [hp] at he; cases he)
    (fun hin => by rw [hp] at hin; cases hin) (.inr ⟨hv, hl, hh⟩)
    (fun _ => ⟨hv, hl, hh⟩) (.inl hh)

theorem loadEpoche (h : Inv X root s) (he : Enabled X root startGCThreshhold s t .loadEpoche) :
    Inv X root (after X s t .loadEpoche) := by
  obtain ⟨hp, hmem⟩ := he
  have hcalm : (s.thread t).phase.Calm := by rw [hp]; trivial
  have hout := (h.reading t).outside (by rw [hp]; rfl)
  exact h.goto rfl rfl rfl le_rfl h.counted rfl hcalm.todo hcalm.current trivial
    hcalm.labels.symm (fun _ => hmem) (fun e he => by cases he; exact le_rfl) (fun hin =>
    nomatch hin) (.inr hout) (fun _ => hout) (.inr rfl)

theorem storeEpoche {e : UInt64} (h : Inv X root s)
    (he : Enabled X root startGCThreshhold s t (.storeEpoche e)) :
    Inv X root (after X s t (.storeEpoche e)) := by
  have hp : (s.thread t).phase = .entering e := he
  have hcalm : (s.thread t).phase.Calm := by rw [hp]; trivial
  have hout := (h.reading t).outside (by rw [hp]; rfl)
  exact h.goto rfl rfl rfl le_rfl h.counted rfl hcalm.todo hcalm.current trivial hcalm.labels.symm
    (fun _ => h.epochs.registered t (by rw [hp]; exact Phase.noConfusion)) (fun e he => nomatch he)
    (fun _ => h.epochs.entering t e hp) (.inr hout) (fun hin => nomatch hin) (.inl hout.2.2)

/-- The thread goes on in its call, where it has no locks. -/
theorem goOn (h : Inv X root s) {ph : Phase} (hin : (s.thread t).phase.inside = true)
    (htodo : (s.thread t).todo = []) (hcalm : ph.Calm) (hto : ph.inside = true)
    (hlabels : (s.thread t).deletionList.labels = (s.thread t).labels)
    (hcurrent : (s.thread t).current = []) : Inv X root (s.setPhase t ph) := by
  have hidle : (s.thread t).phase ≠ .idle := by
    intro hp
    rw [hp] at hin
    cases hin
  refine h.goto rfl rfl rfl le_rfl h.counted rfl htodo hcurrent hcalm hlabels (fun _ =>
    h.epochs.registered t hidle) (fun e he => ?_) (fun _ => h.epochs.inside t hin)
    (.inl ⟨rfl, rfl, rfl⟩) (fun hout => ?_) (.inr rfl)
  · obtain rfl : ph = .entering e := he
    cases hto
  · have hout' : ph.inside = false := hout
    rw [hto] at hout'
    cases hout'

theorem restart {v : UInt64} (h : Inv X root s)
    (he : Enabled X root startGCThreshhold s t (.restart n v)) :
    Inv X root (after X s t (.restart n v)) := by
  have hp : (s.thread t).phase = .holding n v := he
  refine h.goOn ?_ ?_ trivial rfl ?_ ?_
  · rw [hp]
    rfl
  · rw [Thread.todo, hp]
  · rw [Thread.labels, hp]
  · rw [Thread.current, hp]

theorem endInsert (h : Inv X root s) (he : Enabled X root startGCThreshhold s t .endInsert) :
    Inv X root (after X s t .endInsert) := by
  have hp : (s.thread t).phase = .writing [] := he
  refine h.goOn ?_ ?_ trivial rfl ?_ ?_
  · rw [hp]
    rfl
  · rw [Thread.todo, hp]
  · rw [Thread.labels, hp]
  · rw [Thread.current, hp]

theorem abandon (h : Inv X root s) (he : Enabled X root startGCThreshhold s t .abandon) :
    Inv X root (after X s t .abandon) := by
  have hp : (s.thread t).phase = .reading := he
  have hcalm : (s.thread t).phase.Calm := by rw [hp]; trivial
  exact h.goOn (by rw [hp]; rfl) hcalm.todo trivial rfl hcalm.labels.symm hcalm.current

/-- The thread leaves its call. -/
theorem leave (h : Inv X root s) {d : DeletionList .olc} {ph : Phase}
    (hfrom : (s.thread t).phase.Calm) (hin : (s.thread t).phase.inside = true) (hcalm : ph.Calm)
    (hto : ph.inside = false) (hentering : ∀ e, ph ≠ .entering e)
    (hlabels : d.labels = (s.thread t).deletionList.labels) :
    Inv X root (s.setThread t { (s.thread t).leave ph with deletionList := d }) := by
  have hidle : (s.thread t).phase ≠ .idle := by
    intro hp
    rw [hp] at hin
    cases hin
  refine h.goto rfl rfl rfl le_rfl h.counted rfl hfrom.todo hfrom.current hcalm
    (hlabels.trans hfrom.labels.symm) (fun _ => h.epochs.registered t hidle) (fun e he =>
    absurd he (hentering e)) (fun hin => ?_) (.inr ⟨rfl, rfl, rfl⟩)
    (fun _ => ⟨rfl, rfl, rfl⟩) (.inl rfl)
  have hin' : ph.inside = true := hin
  rw [hto] at hin'
  cases hin'

theorem endLookup (h : Inv X root s) (he : Enabled X root startGCThreshhold s t .endLookup) :
    Inv X root (after X s t .endLookup) := by
  have hp : (s.thread t).phase = .reading := he
  exact h.leave (by rw [hp]; trivial) (by rw [hp]; rfl) trivial rfl (fun e => Phase.noConfusion) rfl

theorem countEpoche (h : Inv X root s) (he : Enabled X root startGCThreshhold s t .countEpoche)
    (hlt : (after X s t .countEpoche).increments < 2 ^ 64) :
    Inv X root (after X s t .countEpoche) := by
  have hp : (s.thread t).phase = .leaving := he
  have hcalm : (s.thread t).phase.Calm := by rw [hp]; trivial
  have hin : (s.thread t).phase.inside = true := by rw [hp]; rfl
  by_cases hcount : (s.thread t).deletionList.thresholdCounter % 64 = 1
  · rw [after, if_pos hcount] at hlt ⊢
    have hadd : (s.currentEpoche + 1).toNat = s.increments + 1 := by
      have hcounted := h.counted
      simp only [UInt64.toNat_add, UInt64.reduceToNat] at hlt ⊢
      omega
    have hle : s.currentEpoche.toNat ≤ (s.currentEpoche + 1).toNat := by
      rw [hadd, h.counted]
      exact Nat.le_succ _
    exact h.goto rfl rfl rfl hle hadd rfl hcalm.todo hcalm.current trivial hcalm.labels.symm
      (fun _ => h.epochs.registered t (by rw [hp]; exact Phase.noConfusion))
      (fun e he => nomatch he) (fun _ => (h.epochs.inside t hin).trans hle) (.inl ⟨rfl, rfl, rfl⟩)
      (fun hout => nomatch hout) (.inr rfl)
  · rw [after, if_neg hcount]
    exact h.goOn hin hcalm.todo trivial rfl hcalm.labels.symm hcalm.current

theorem keep (h : Inv X root s) (he : Enabled X root startGCThreshhold s t .keep) :
    Inv X root (after X s t .keep) := by
  obtain ⟨hp, -⟩ := he
  exact h.leave (by rw [hp]; trivial) (by rw [hp]; rfl) trivial rfl (fun e => Phase.noConfusion) rfl

theorem nothing (h : Inv X root s) (he : Enabled X root startGCThreshhold s t .nothing) :
    Inv X root (after X s t .nothing) := by
  obtain ⟨hp, -⟩ := he
  exact h.leave (by rw [hp]; trivial) (by rw [hp]; rfl) trivial rfl (fun e => Phase.noConfusion) rfl

theorem withdraw (h : Inv X root s) (he : Enabled X root startGCThreshhold s t .withdraw) :
    Inv X root (after X s t .withdraw) := by
  obtain ⟨hp, -⟩ := he
  exact h.leave (by rw [hp]; trivial) (by rw [hp]; rfl) trivial rfl (fun e => Phase.noConfusion) rfl

/-! ### Reading -/

theorem readLock (h : Inv X root s) (he : Enabled X root startGCThreshhold s t (.readLock n)) :
    Inv X root (after X s t (.readLock n)) := by
  obtain ⟨hp, hn, hfree⟩ := he
  have hread := h.reading t
  have hphase : (s.thread t).phase = .reading ∨ ∃ m v, (s.thread t).phase = .holding m v := by
    unfold Phase.reads at hp
    split at hp
    · exact .inl ‹_›
    · exact .inr ⟨_, _, ‹_›⟩
    · cases hp
  have hin : (s.thread t).phase.inside = true ∧ (s.thread t).todo = [] ∧ (s.thread t).current = [] ∧
      (∀ m k p, (s.thread t).phase ≠ .both m k p) ∧ (∀ e, (s.thread t).phase ≠ .entering e) ∧
      (∀ rest e, (s.thread t).phase ≠ .scanning rest e) ∧
      (∀ e kept nodes rest, (s.thread t).phase ≠ .freeing e kept nodes rest) ∧
      (s.thread t).phase ≠ .idle := by
    unfold Thread.todo Thread.current
    rcases hphase with hp | ⟨m, v, hp⟩
    all_goals
      rw [hp]
      exact ⟨rfl, rfl, rfl, fun _ _ _ => Phase.noConfusion, fun _ => Phase.noConfusion, fun _ _ =>
      Phase.noConfusion,
        fun _ _ _ _ => Phase.noConfusion, Phase.noConfusion⟩
  obtain ⟨hin, htodo, hcurrent, hboth, hentering, hscanning, hfreeing, hidle⟩ := hin
  refine h.calm rfl rfl rfl h.counted htodo htodo (fun _ => id) (fun _ => id) hboth (.refl _) ?_ ?_
  · refine ⟨fun hout => ?_, hread.held, fun e he => ?_, fun l hl => ?_, hread.holding, hread.both⟩
    · have hout' : (s.thread t).phase.inside = false := hout
      rw [hin] at hout'
      cases hout'
    · rcases List.mem_cons.1 he with rfl | he
      · exact ⟨hn, (free_iff _).2 hfree, le_rfl⟩
      · exact hread.versions e he
    · obtain ⟨hmem, hl⟩ := hread.links l hl
      exact ⟨List.mem_cons_of_mem _ hmem, hl⟩
  · exact h.epochs.calm rfl le_rfl (fun u hu => hu) (fun _ => h.epochs.registered t hidle)
      (fun e he => absurd he (hentering e)) (fun _ => h.epochs.inside t hin) (fun x hx =>
      .inl ⟨hx, rfl⟩) rfl hcurrent hscanning hfreeing

theorem getChild {l : Link} (h : Inv X root s)
    (he : Enabled X root startGCThreshhold s t (.getChild l)) :
    Inv X root (after X s t (.getChild l)) := by
  obtain ⟨hp, hmem, htyped, hchild⟩ := he
  have hread := h.reading t
  have hcalm : (s.thread t).phase.Calm := by rw [hp]; trivial
  have hne : ∀ ph : Phase, ph ≠ .reading → (s.thread t).phase ≠ ph :=
    fun ph hph heq => hph (heq.symm.trans hp)
  refine h.calm rfl rfl rfl h.counted hcalm.todo hcalm.todo (fun _ => id) (fun _ => id)
    (fun _ _ _ => hne _ Phase.noConfusion) (.refl _) ?_ ?_
  · refine ⟨fun hout => ?_, hread.held, hread.versions, fun l' hl' => ?_, fun n v hp' =>
      absurd hp' (hne _ Phase.noConfusion), hread.both⟩
    · have hout' : (s.thread t).phase.inside = false := hout
      rw [hp] at hout'
      cases hout'
    · rcases List.mem_cons.1 hl' with rfl | hl'
      · refine ⟨hmem, fun hw => ⟨hchild, ?_⟩⟩
        rw [← hw]
        exact age_of_typed htyped
      · exact hread.links l' hl'
  · exact h.epochs.calm rfl le_rfl (fun u hu => hu) (fun _ =>
      h.epochs.registered t (hne _ Phase.noConfusion)) (fun e he =>
      absurd he (hne _ Phase.noConfusion)) (fun _ => h.epochs.inside t (by rw [hp]; rfl))
      (fun x hx => .inl ⟨hx, rfl⟩) rfl hcalm.current (fun _ _ => hne _ Phase.noConfusion)
      fun _ _ _ _ => hne _ Phase.noConfusion

/-- A pointer that was read and validated is not retired. -/
theorem validated {l : Link} {p : Ptr} (h : Inv X root s) (hl : l ∈ (s.thread t).links)
    (hp : l.child = some p) (hw : (s.node l.node).word = l.v) :
    target X p ∈ s.live ∧ ∀ u, target X p ∉ (s.thread u).retired X := by
  obtain ⟨hmem, hchild⟩ := (h.reading t).links l hl
  obtain ⟨-, hfree, -⟩ := (h.reading t).versions _ hmem
  have hn := (h.reading t).mem_live h.graph.standing_root.1 hmem
  have hc : s.Child X l.node l.key (target X p) := ⟨p, (hchild hw).1.trans hp, rfl⟩
  obtain ⟨hlive, -, hnot⟩ := h.graph.child_of_free h.locking hn (hw ▸ hfree) hc
  exact ⟨hlive, hnot⟩

theorem check {l : Link} {p : Ptr} (h : Inv X root s)
    (he : Enabled X root startGCThreshhold s t (.check l p)) :
    Inv X root (after X s t (.check l p)) := by
  obtain ⟨hp, hl, hchild, hw⟩ := he
  obtain ⟨hlive, hnot⟩ := h.validated hl hchild hw
  have hread := h.reading t
  have hcalm : (s.thread t).phase.Calm := by rw [hp]; trivial
  have hne : ∀ ph : Phase, ph ≠ .reading → (s.thread t).phase ≠ ph :=
    fun ph hph heq => hph (heq.symm.trans hp)
  refine h.calm rfl rfl rfl h.counted hcalm.todo hcalm.todo (fun _ => id) (fun _ => id)
    (fun _ _ _ => hne _ Phase.noConfusion) (.refl _) ?_ ?_
  · refine ⟨fun hout => ?_, fun x hx => ?_, fun e he => ?_, hread.links, fun n v hp' =>
      absurd hp' (hne _ Phase.noConfusion), hread.both⟩
    · have hout' : (s.thread t).phase.inside = false := hout
      rw [hp] at hout'
      cases hout'
    · rcases List.mem_cons.1 hx with rfl | hx
      · exact hlive
      · exact hread.held x hx
    · obtain ⟨h₁, h₂⟩ := hread.versions e he
      exact ⟨h₁.imp_right (List.mem_cons_of_mem _), h₂⟩
  · refine h.epochs.calm rfl le_rfl (fun u hu => hu) (fun _ =>
      h.epochs.registered t (hne _ Phase.noConfusion)) (fun e he =>
      absurd he (hne _ Phase.noConfusion)) (fun _ => h.epochs.inside t (by rw [hp]; rfl))
      (fun x hx => ?_) rfl hcalm.current (fun _ _ => hne _ Phase.noConfusion) fun _ _ _ _ =>
      hne _ Phase.noConfusion
    rcases List.mem_cons.1 hx with rfl | hx
    · exact .inr ⟨hnot t, hnot⟩
    · exact .inl ⟨hx, rfl⟩

/-! ### Locking and unlocking -/

/-- A lock word is increased. -/
theorem fetchAdd (h : Inv X root s) {r : Thread} {d : UInt64}
    (hthread : s'.thread = Function.update s.thread t r)
    (hnode : s'.node = Function.update s.node n { s.node n with word := (s.node n).word + d })
    (hlive : s'.live = s.live) (hcounted : s'.currentEpoche.toNat = s'.increments)
    (hlocking : Locking X s') (hage : age n (s.node n).word < age n ((s.node n).word + d))
    (hmono : isObsolete (s.node n).word = true → isObsolete ((s.node n).word + d) = true)
    (hdoomed : ∀ m, isObsolete (s'.node m).word = true ∨ .obsolete m ∈ r.todo ↔ s.DoomedBy t m)
    (hchange : ∀ m k q, .change m k q ∈ r.todo ↔ .change m k q ∈ (s.thread t).todo)
    (hretired : r.retired X = (s.thread t).retired X)
    (hreading : (s.thread t).Reading root s' → (∀ m, (s'.node m).child = (s.node m).child) →
      r.Reading root s')
    (hepochs : Epochs X s') : Inv X root s' := by
  have hchild : ∀ m, (s'.node m).child = (s.node m).child := by
    intro m
    rw [hnode]
    by_cases hm : m = n
    · subst hm
      rw [Function.update_self]
    · rw [Function.update_of_ne hm]
  have ha : Advances s s' := .of_word hnode hage
  refine ⟨hlocking, h.graph.congr hthread hlive hchild (fun m hm => ?_) hdoomed hchange
    (.of_eq hretired), h.reading_of hthread ha (fun u _ x hx => ?_) (fun u _ m _ => hchild m) ?_,
    hepochs, hcounted⟩
  · rw [hnode]
    by_cases hmn : m = n
    · subst hmn
      rw [Function.update_self]
      exact hmono hm
    · rwa [Function.update_of_ne hmn]
  · rw [hlive]
    exact (h.reading u).held x hx
  · refine hreading ?_ hchild
    exact (h.reading t).mono (X := X) h.graph.standing_root.1 ha (fun x hx =>
      hlive ▸ (h.reading t).held x hx) fun m _ => hchild m

/-- Where no lock is given up for good, the step dooms nothing. -/
theorem doomed_add_two {r : Thread}
    (hnode : s'.node = Function.update s.node n { s.node n with word := (s.node n).word + 0b10 })
    (htodo : ∀ m, .obsolete m ∈ r.todo ↔ .obsolete m ∈ (s.thread t).todo) (m : Ref) :
    isObsolete (s'.node m).word = true ∨ .obsolete m ∈ r.todo ↔ s.DoomedBy t m := by
  unfold World.DoomedBy
  rw [htodo, hnode]
  by_cases hm : m = n
  · subst hm
    rw [Function.update_self, isObsolete_add_two]
  · rw [Function.update_of_ne hm]

theorem age_lt_add {d : UInt64} (h : age n (s.node n).word + d.toNat < 2 ^ 64) (hd : 0 < d.toNat) :
    age n (s.node n).word < age n ((s.node n).word + d) := by
  rw [age_add h]
  exact Nat.lt_add_of_pos_right hd

theorem upgrade {l : Link} (h : Inv X root s)
    (he : Enabled X root startGCThreshhold s t (.upgrade l)) :
    Inv X root (after X s t (.upgrade l)) := by
  obtain ⟨hp, hl, hw⟩ := he
  have hread := h.reading t
  obtain ⟨hmem, hlink⟩ := hread.links l hl
  obtain ⟨-, hfree, -⟩ := hread.versions _ hmem
  have hn := hread.mem_live h.graph.standing_root.1 hmem
  have hfree' : Free (s.node l.node).word := hw ▸ hfree
  have hyoung : age l.node (s.node l.node).word < 2 ^ 62 := by
    rw [hw]
    exact (hlink hw).2
  have hcalm : (s.thread t).phase.Calm := by rw [hp]; trivial
  have hretired : Thread.retired X { s.thread t with phase := .holding l.node l.v } =
    (s.thread t).retired X := by
    rw [Thread.retired, Thread.retired, hcalm.todo, hcalm.current, hcalm.labels]
    rfl
  refine h.fetchAdd rfl rfl rfl h.counted (h.locking.take rfl rfl rfl hn hfree'
    (fun m hm => .inl hm) (fun m hm => .inl ⟨hm, hyoung⟩) ⟨trivial, fun _ _ _ hp => nomatch hp⟩)
    (age_lt_add ?_ ?_) (fun ho => ?_) (doomed_add_two rfl fun m => by rw [hcalm.todo]; rfl)
    (fun m k q => by rw [hcalm.todo]; rfl) hretired
    (fun hread' hchild => ?_) ?_
  · simp only [UInt64.reduceToNat]
    omega
  · decide
  · rwa [isObsolete_add_two]
  · refine ⟨fun hout => (nomatch hout), hread'.held, hread'.versions, hread'.links,
      fun n v hp' l' hl' hn' hv => ?_, fun _ _ _ hp => nomatch hp⟩
    cases hp'
    rw [hchild]
    obtain ⟨-, hlink'⟩ := hread.links l' hl'
    rw [hn', hv] at hlink'
    exact (hlink' hw).1
  · exact h.epochs.goOn rfl rfl rfl (by rw [hp]; rfl) rfl hcalm.labels.symm

theorem lockChild {v w : UInt64} {k : UInt8} {p : Ptr} (h : Inv X root s)
    (he : Enabled X root startGCThreshhold s t (.lockChild n v k p w)) :
    Inv X root (after X s t (.lockChild n v k p w)) := by
  obtain ⟨hp, hl, hheld, hmem, hw⟩ := he
  have hread := h.reading t
  obtain ⟨-, hfree, -⟩ := hread.versions _ hmem
  have hlive := hread.held _ hheld
  have hfree' : Free (s.node (target X p)).word := hw ▸ hfree
  have howns : (s.thread t).Owns X n := by
    rw [Thread.Owns, hp]
  have hne : n ≠ target X p := fun heq => (h.locking.held t n howns).not_free (heq ▸ hfree')
  have htodo : (s.thread t).todo = [] := by rw [Thread.todo, hp]
  have hlabels : (s.thread t).labels = (s.thread t).deletionList.labels := by rw [Thread.labels, hp]
  have hretired : Thread.retired X { s.thread t with phase := .both n k p } =
    (s.thread t).retired X := by
    rw [Thread.retired, Thread.retired, htodo, hlabels,
      (by rw [Thread.current, hp] : (s.thread t).current = [])]
    rfl
  have hsound := (h.locking.node _ hlive).age (Bool.eq_false_iff.2 (not_isObsolete_of_free hfree'))
  refine h.fetchAdd rfl rfl rfl h.counted (h.locking.take rfl rfl rfl hlive hfree' (fun m hm => ?_)
    (fun m hm => .inr ?_) ⟨trivial, fun _ _ _ hp => by cases hp; exact hne⟩)
    (age_lt_add ?_ ?_) (fun ho => ?_) (doomed_add_two rfl fun m => by rw [htodo]; rfl)
    (fun m k q => by rw [htodo]; rfl) hretired (fun hread' hchild => ?_) ?_
  · exact Or.symm (hm.imp_left fun hm => by rw [hm]; exact howns)
  · rw [Thread.OwnsFirst, hp]
    exact hm
  · simp only [UInt64.reduceToNat]
    omega
  · decide
  · rwa [isObsolete_add_two]
  · refine ⟨fun hout => (nomatch hout), hread'.held, hread'.versions, hread'.links,
      fun _ _ hp => (nomatch hp), fun n' k' p' hp' => ?_⟩
    cases hp'
    rw [hchild]
    exact hread.holding n v hp _ hl rfl rfl
  · exact h.epochs.goOn rfl rfl rfl (by rw [hp]; rfl) rfl hlabels.symm

theorem unlockBack {v : UInt64} (h : Inv X root s)
    (he : Enabled X root startGCThreshhold s t (.unlockBack n v)) :
    Inv X root (after X s t (.unlockBack n v)) := by
  have hp : (s.thread t).phase = .holding n v := he
  have hfirst : (s.thread t).OwnsFirst n := by
    rw [Thread.OwnsFirst, hp]
  have htodo : (s.thread t).todo = [] := by rw [Thread.todo, hp]
  have hlabels : (s.thread t).labels = (s.thread t).deletionList.labels := by rw [Thread.labels, hp]
  have hretired : Thread.retired X { s.thread t with phase := .reading } =
    (s.thread t).retired X := by
    rw [Thread.retired, Thread.retired, htodo, hlabels,
      (by rw [Thread.current, hp] : (s.thread t).current = [])]
    rfl
  have hage := h.locking.first t n hfirst
  refine h.fetchAdd rfl rfl rfl h.counted (h.locking.release rfl rfl rfl
    (Thread.owns_of_first hfirst) (fun m hm => hm.elim) (fun m hm => hm.elim)
    (h.locking.sound_unlock hfirst) ⟨trivial, fun _ _ _ hp => nomatch hp⟩)
    (age_lt_add ?_ ?_) (fun ho => ?_) (doomed_add_two rfl fun m => by rw [htodo]; rfl)
    (fun m k q => by rw [htodo]; rfl)
    hretired (fun hread' _ => ?_) ?_
  · simp only [UInt64.reduceToNat]
    omega
  · decide
  · rwa [isObsolete_add_two]
  · exact hread'.goto (.inl ⟨rfl, rfl, rfl⟩) (fun hout => nomatch hout) (fun _ _ =>
      Phase.noConfusion) fun _ _ _ => Phase.noConfusion
  · exact h.epochs.goOn rfl rfl rfl (by rw [hp]; rfl) rfl hlabels.symm

/-! ### Building -/

section Building

variable {new : List (Ref × Node)} {ph : Phase} {k : UInt8} {top x : Ref} {N L : List Ref}

theorem build_node_of_notMem (hx : x ∉ new.map Prod.fst) : (s.build new).node x = s.node x := by
  have hnone : new.lookup x = none := by
    rw [List.lookup_eq_none_iff]
    intro e he
    rw [bne_iff_ne]
    rintro rfl
    exact hx (List.mem_map_of_mem he)
  show (new.lookup x).getD (s.node x) = _
  rw [hnone]
  rfl

theorem build_node_of_mem {o : Node} (hnodup : (new.map Prod.fst).Nodup) (hx : (x, o) ∈ new) :
    (s.build new).node x = o := by
  show (new.lookup x).getD (s.node x) = o
  induction new with
  | nil => cases hx
  | cons e new ih =>
    rw [List.map_cons, List.nodup_cons] at hnodup
    rcases List.mem_cons.1 hx with rfl | hx
    · rw [List.lookup_cons_self]
      rfl
    · have hne : (x == e.1) = false := by
        rw [beq_eq_false_iff_ne]
        rintro rfl
        exact hnodup.1 (List.mem_map.2 ⟨_, hx, rfl⟩)
      rw [List.lookup_cons, hne]
      exact ih hnodup.2 hx

theorem mem_build : x ∈ (s.build new).live ↔ x ∈ new.map Prod.fst ∨ x ∈ s.live := by
  rw [World.build, Finset.mem_union, List.mem_toFinset]

/-- New nodes are built. -/
theorem built (h : Inv X root s) (hfresh : s.Fresh (new.map Prod.fst))
    (hin : (s.thread t).phase.inside = true)
    (hlabels : (s.thread t).deletionList.labels = (s.thread t).labels) (hto : ph.inside = true)
    (hholding : ∀ n v, ph ≠ .holding n v) (hboth : ∀ n k p, ph ≠ .both n k p)
    (hordered : Ordered (Thread.todo { s.thread t with phase := ph }))
    (howns : ∀ m, Thread.Owns X { s.thread t with phase := ph } m → (s.thread t).Owns X m)
    (hfirst : ∀ m, Thread.OwnsFirst { s.thread t with phase := ph } m → (s.thread t).OwnsFirst m)
    (hsound : ∀ e ∈ new, e.2.Sound e.1)
    (hb : Graph.Builds X s ((s.build new).setPhase t ph) t { s.thread t with phase := ph } n k top
      (new.map Prod.fst) L) : Inv X root ((s.build new).setPhase t ph) := by
  have hold : ∀ m ∈ s.live, (s.build new).node m = s.node m := fun m hm =>
    build_node_of_notMem fun hmem => hfresh.2 m hmem hm
  have hlive : ∀ m ∈ s.live, m ∈ (s.build new).live := fun m hm => mem_build.2 (.inr hm)
  have ha : Advances s ((s.build new).setPhase t ph) := .of_fresh hold
  refine ⟨h.locking.quiet rfl (fun m hm => congrArg Node.word (hold m hm)) (fun m hm => ?_)
    (fun u m ho => hlive m (h.locking.live u m ho)) howns hfirst ⟨hordered, fun m j p hp =>
    absurd hp (hboth m j p)⟩, h.graph.built h.locking hb, h.reading_of rfl ha (fun u _ m hm =>
    hlive m ((h.reading u).held m hm))
      (fun u _ m ho => congrArg Node.child (hold m (h.locking.live u m ho))) ?_,
    h.epochs.goOn rfl rfl rfl hin hto hlabels, h.counted⟩
  · by_cases hmem : m ∈ new.map Prod.fst
    · obtain ⟨e, he, rfl⟩ := List.mem_map.1 hmem
      have hnode : ((s.build new).setPhase t ph).node e.1 = e.2 := build_node_of_mem hfresh.1 he
      rw [hnode]
      exact hsound e he
    · have hm' : m ∈ s.live := (mem_build.1 hm).resolve_left hmem
      have hnode : ((s.build new).setPhase t ph).node m = s.node m := hold m hm'
      rw [hnode]
      exact h.locking.node m hm'
  · have hread := (h.reading t).mono (X := X) h.graph.standing_root.1 ha (fun m hm =>
      hlive m ((h.reading t).held m hm)) fun m ho =>
      congrArg Node.child (hold m (h.locking.live t m ho))
    refine hread.goto (.inl ⟨rfl, rfl, rfl⟩) (fun hout => ?_) hholding hboth
    have hout' : ph.inside = false := hout
    rw [hto] at hout'
    cases hout'

/-- The children of a node that was built. -/
theorem child_of_build {o : Node} {j : UInt8} {z : Ref} (hnodup : (new.map Prod.fst).Nodup)
    (hx : (x, o) ∈ new) :
    ((s.build new).setPhase t ph).Child X x j z ↔ ∃ p, o.child j = some p ∧ target X p = z := by
  have hnode : ((s.build new).setPhase t ph).node x = o := build_node_of_mem hnodup hx
  rw [World.Child, hnode]

/-- What has to be seen to in a thread that builds. -/
theorem builds (hfresh : s.Fresh (new.map Prod.fst)) (htodo : (s.thread t).todo = [])
    (hnew : ∀ e ∈ new, ¬isObsolete e.2.word = true)
    (hchange : ∀ m j q, .change m j q ∈ Thread.todo { s.thread t with phase := ph } → m = n ∧
      j = k ∧ target X q = top ∧ top ∈ new.map Prod.fst)
    (hobsolete : ∀ x, .obsolete x ∈ Thread.todo { s.thread t with phase := ph } →
      (s.thread t).Owns X n ∧ (s.thread t).Owns X x ∧ s.Child X n k x ∧ x ≠ n)
    (hretired : Thread.retired X { s.thread t with phase := ph } = L ++ (s.thread t).retired X)
    (hL : L.Nodup)
    (hretires : ∀ x ∈ L, .obsolete x ∈ Thread.todo { s.thread t with phase := ph } ∧
      ∃ q, .change n k q ∈ Thread.todo { s.thread t with phase := ph })
    (hchild : ∀ e ∈ new, ∀ j p, e.2.child j = some p → target X p ∈ new.map Prod.fst ∧
      target X p ≠ top ∨ ∃ x i, .obsolete x ∈ Thread.todo { s.thread t with phase := ph } ∧
      s.Child X x i (target X p))
    (hparent : ∀ e ∈ new, ∀ e' ∈ new, ∀ j j' p p', e.2.child j = some p → e'.2.child j' = some p' →
      target X p = target X p' → e.1 = e'.1 ∧ j = j') :
    Graph.Builds X s ((s.build new).setPhase t ph) t { s.thread t with phase := ph } n k top
      (new.map Prod.fst) L := by
  have hnode : ∀ e ∈ new, ((s.build new).setPhase t ph).node e.1 = e.2 :=
    fun e he => build_node_of_mem hfresh.1 he
  refine ⟨htodo, rfl, fun x => mem_build, fun x hx => build_node_of_notMem hx, hfresh.2,
    fun x hx => ?_, hchange, hobsolete, hretired, hL, hretires, fun y hy j z hz => ?_,
    fun y hy y' hy' j j' z hz hz' => ?_⟩
  · obtain ⟨e, he, rfl⟩ := List.mem_map.1 hx
    rw [hnode e he]
    exact hnew e he
  · obtain ⟨e, he, rfl⟩ := List.mem_map.1 hy
    obtain ⟨p, hp, rfl⟩ := (child_of_build hfresh.1 he).1 hz
    exact hchild e he j p hp
  · obtain ⟨e, he, rfl⟩ := List.mem_map.1 hy
    obtain ⟨e', he', rfl⟩ := List.mem_map.1 hy'
    obtain ⟨p, hp, rfl⟩ := (child_of_build hfresh.1 he).1 hz
    obtain ⟨p', hp', heq⟩ := (child_of_build hfresh.1 he').1 hz'
    exact hparent e he e' he' j j' p p' hp hp' heq.symm

theorem overflow {slots : List Ref} (h : Inv X root s)
    (he : Enabled X root startGCThreshhold s t (.overflow slots)) :
    Inv X root (after X s t (.overflow slots)) := by
  obtain ⟨hp, hfresh⟩ := he
  have hphase : (s.thread t).phase.inside = true ∧ (s.thread t).todo = [] ∧
    (s.thread t).current = [] ∧
      (s.thread t).labels = (s.thread t).deletionList.labels := by
    unfold Phase.allocates at hp
    unfold Thread.todo Thread.current Thread.labels
    split at hp
    · rename_i hp'
      rw [hp']
      exact ⟨rfl, rfl, rfl, rfl⟩
    · rename_i hp'
      rw [hp']
      exact ⟨rfl, rfl, rfl, rfl⟩
    · cases hp
  obtain ⟨hin, htodo, hcurrent, hlabels⟩ := hphase
  have hretired : Thread.retired X { s.thread t with phase := .leaving } =
    (s.thread t).retired X := by
    rw [Thread.retired, Thread.retired, htodo, hcurrent, hlabels]
    rfl
  have hslots : (slots.map fun x => (x, (⟨newWord x.special, 0, fun _ => none⟩ : Node))).map
    Prod.fst = slots := by
    rw [List.map_map]
    exact List.map_id slots
  have hnew : ∀ e ∈ slots.map fun x => (x, (⟨newWord x.special, 0, fun _ => none⟩ : Node)),
      e.2 = ⟨newWord e.1.special, 0, fun _ => none⟩ := by
    intro e he
    obtain ⟨x, -, rfl⟩ := List.mem_map.1 he
    rfl
  rw [← hslots] at hfresh
  rw [after]
  generalize (slots.map fun x => (x, (⟨newWord x.special, 0, fun _ => none⟩ : Node))) =
    new at hfresh hnew
  have hnone : ∀ e ∈ new, ∀ j p, e.2.child j ≠ some p := by
    intro e he j p hp
    rw [hnew e he] at hp
    cases hp
  have hb : Graph.Builds X s ((s.build new).setPhase t .leaving) t
    { s.thread t with phase := .leaving } root 0 root
      (new.map Prod.fst) [] := by
    refine builds hfresh htodo (fun e he => ?_) (fun _ _ _ hc => nomatch hc) (fun _ ho =>
      nomatch ho) hretired List.nodup_nil (fun _ hx => nomatch hx) (fun e he j p hp =>
      absurd hp (hnone e he j p)) fun e he e' he' j j' p p' hp => absurd hp (hnone e he j p)
    rw [hnew e he]
    exact not_isObsolete_of_free (free_newWord _)
  refine h.built hfresh hin hlabels.symm rfl (fun _ _ => Phase.noConfusion) (fun _ _ _ =>
    Phase.noConfusion) trivial (fun m hm => hm.elim) (fun m hm => hm.elim) (fun e he => ?_) hb
  rw [hnew e he]
  exact Node.sound_new rfl (Nat.two_pow_pos 32)

theorem insertInPlace {v : UInt64} {k : UInt8} {leaf : Ptr} (h : Inv X root s)
    (he : Enabled X root startGCThreshhold s t (.insertInPlace n v k leaf)) :
    Inv X root (after X s t (.insertInPlace n v k leaf)) := by
  obtain ⟨hp, -, -, hfresh⟩ := he
  have howns : (s.thread t).OwnsFirst n := by
    rw [Thread.OwnsFirst, hp]
  have htodo : (s.thread t).todo = [] := by rw [Thread.todo, hp]
  have hlabels : (s.thread t).labels = (s.thread t).deletionList.labels := by rw [Thread.labels, hp]
  have hretired : Thread.retired X
    { s.thread t with phase := .writing [.change n k leaf, .unlock n] } =
      [] ++ (s.thread t).retired X := by
    rw [Thread.retired, Thread.retired, htodo, hlabels,
      (by rw [Thread.current, hp] : (s.thread t).current = [])]
    rfl
  have hunlock : ∀ m, .unlock m ∈ [Act.change n k leaf, .unlock n] → m = n := by
    intro m hm
    simpa using hm
  have hb : Graph.Builds X s (after X s t (.insertInPlace n v k leaf)) t
      { s.thread t with phase := .writing [.change n k leaf, .unlock n] } n k (target X leaf)
      ([(target X leaf, Node.new leaf 0)].map Prod.fst) [] := by
    refine builds hfresh htodo (fun e he => ?_) (fun m j q hc => ?_)
      (fun x hx => ?_) hretired List.nodup_nil (fun _ hx => nomatch hx) (fun e he j p hp => ?_)
      fun e he e' he' j j' p p' hp => ?_
    · rw [List.mem_singleton.1 he]
      exact not_isObsolete_of_free (free_newWord _)
    · have heq : m = n ∧ j = k ∧ q = leaf := by simpa [Thread.todo] using hc
      obtain ⟨rfl, rfl, rfl⟩ := heq
      exact ⟨rfl, rfl, rfl, List.mem_singleton_self _⟩
    · simp [Thread.todo] at hx
    · rw [List.mem_singleton.1 he] at hp
      cases hp
    · rw [List.mem_singleton.1 he] at hp
      cases hp
  refine h.built hfresh (by rw [hp]; rfl) hlabels.symm rfl (fun _ _ => Phase.noConfusion)
    (fun _ _ _ => Phase.noConfusion) (by simp [Thread.todo, Ordered]) (fun m hm => ?_)
    (fun m hm => ?_) (fun e he => ?_) hb
  · have hmn : m = n := hm.elim (hunlock m) fun hm => by simp at hm
    rw [hmn]
    exact Thread.owns_of_first howns
  · rw [hunlock m hm]
    exact howns
  · rw [List.mem_singleton.1 he]
    exact Node.sound_new rfl (Nat.two_pow_pos 32)

/-- What is known of two nodes that are locked. -/
theorem of_both {p : Ptr} (h : Inv X root s) (hp : (s.thread t).phase = .both n k p) :
    (s.thread t).OwnsFirst n ∧ (s.thread t).Owns X (target X p) ∧ s.Child X n k (target X p) ∧
      target X p ≠ n ∧ s.Standing (target X p) := by
  have howns : (s.thread t).Owns X (target X p) := by
    rw [Thread.Owns, hp]
    exact .inr rfl
  refine ⟨by rw [Thread.OwnsFirst, hp], howns, ⟨p, (h.reading t).both n k p hp, rfl⟩,
    ((h.locking.thread t).ne n k p hp).symm, h.locking.standing_of_owns howns ?_⟩
  rw [Thread.todo, hp]
  exact List.not_mem_nil

/-- What replaces a child is built. It may take over children of the one that is replaced. -/
theorem replace {p q : Ptr} {todo : List Act} (h : Inv X root s)
    (hp : (s.thread t).phase = .both n k p)
    (hT : todo = [.change n k q, .obsolete (target X p), .mark p, .unlock n] ∨
      todo = [.change n k q, .unlock n, .obsolete (target X p), .mark p] ∨
      todo = [.obsolete (target X p), .mark p, .change n k q, .unlock n])
    (hfresh : s.Fresh (new.map Prod.fst)) (hq : target X q ∈ new.map Prod.fst)
    (hnew : ∀ e ∈ new, ¬isObsolete e.2.word = true ∧ e.2.Sound e.1)
    (hchild : ∀ e ∈ new, ∀ j p', e.2.child j = some p' → target X p' ∈ new.map Prod.fst ∧
      target X p' ≠ target X q ∨ ∃ i, s.Child X (target X p) i (target X p'))
    (hparent : ∀ e ∈ new, ∀ e' ∈ new, ∀ j j' p p', e.2.child j = some p → e'.2.child j' = some p' →
      target X p = target X p' → e.1 = e'.1 ∧ j = j') :
    Inv X root ((s.build new).setPhase t (.writing todo)) := by
  obtain ⟨hfirst, hsecond, hc, hne, -⟩ := h.of_both hp
  have htodo : (s.thread t).todo = [] := by rw [Thread.todo, hp]
  have hlabels : (s.thread t).labels = (s.thread t).deletionList.labels := by rw [Thread.labels, hp]
  have hmarked : todo.filterMap Act.marked = [p] := by
    rcases hT with rfl | rfl | rfl <;> rfl
  have hretired : Thread.retired X { s.thread t with phase := .writing todo } =
    [target X p] ++ (s.thread t).retired X := by
    rw [Thread.retired, Thread.retired, htodo, hlabels,
      (by rw [Thread.current, hp] : (s.thread t).current = [])]
    show (todo.filterMap Act.marked ++ _).map (target X) = _
    rw [hmarked]
    rfl
  have hchange : ∀ m j q', .change m j q' ∈ todo ↔ m = n ∧ j = k ∧ q' = q := by
    rcases hT with rfl | rfl | rfl <;> simp
  have hobsolete : ∀ x, .obsolete x ∈ todo ↔ x = target X p := by
    rcases hT with rfl | rfl | rfl <;> simp
  have hunlock : ∀ m, .unlock m ∈ todo ↔ m = n := by
    rcases hT with rfl | rfl | rfl <;> simp
  have hordered : Ordered todo := by
    rcases hT with rfl | rfl | rfl <;> simp [Ordered, hne, Ne.symm hne]
  have hb : Graph.Builds X s ((s.build new).setPhase t (.writing todo)) t
    { s.thread t with phase := .writing todo } n k
      (target X q) (new.map Prod.fst) [target X p] := by
    refine builds hfresh htodo (fun e he => (hnew e he).1) (fun m j q' hm => ?_)
      (fun x hx => ?_) hretired (List.nodup_singleton _) (fun x hx => ?_)
      (fun e he j p' hp' => ?_) hparent
    · obtain ⟨hm, hj, rfl⟩ := (hchange m j q').1 hm
      exact ⟨hm, hj, rfl, hq⟩
    · obtain rfl := (hobsolete x).1 hx
      exact ⟨Thread.owns_of_first hfirst, hsecond, hc, hne⟩
    · exact ⟨(hobsolete x).2 (List.mem_singleton.1 hx), q, (hchange n k q).2 ⟨rfl, rfl, rfl⟩⟩
    · exact (hchild e he j p' hp').imp_right fun ⟨i, hi⟩ => ⟨_, i, (hobsolete _).2 rfl, hi⟩
  refine h.built hfresh (by rw [hp]; rfl) hlabels.symm rfl (fun _ _ => Phase.noConfusion)
    (fun _ _ _ => Phase.noConfusion) hordered (fun m hm => ?_) (fun m hm => ?_) (fun e he =>
    (hnew e he).2) hb
  · rcases hm with hm | hm
    · rw [(hunlock m).1 hm]
      exact Thread.owns_of_first hfirst
    · rw [(hobsolete m).1 hm]
      exact hsecond
  · rw [(hunlock m).1 hm]
    exact hfirst

theorem not_isObsolete_newWord (special : ℕ) : ¬isObsolete (newWord special) = true :=
  not_isObsolete_of_free (free_newWord special)

/-- The children of a node that is locked are allocated, and each is there once. -/
theorem children_of_both {p : Ptr} (h : Inv X root s) (hp : (s.thread t).phase = .both n k p) :
    (∀ j p', (s.node (target X p)).child j = some p' → target X p' ∈ s.live) ∧ ∀ j j' p' p'',
      (s.node (target X p)).child j = some p' → (s.node (target X p)).child j' = some p'' →
        target X p' = target X p'' → j = j' := by
  obtain ⟨-, -, -, -, hs⟩ := h.of_both hp
  refine ⟨fun j p' hp' => (h.graph.child _ j _ hs ⟨p', hp', rfl⟩).1,
    fun j j' p' p'' hp' hp'' heq => ?_⟩
  exact (h.graph.parent _ _ j j' (target X p') hs hs ⟨p', hp', rfl⟩ ⟨p'', hp'', heq.symm⟩).2

theorem grow {k key : UInt8} {p nBig leaf : Ptr} (h : Inv X root s)
    (he : Enabled X root startGCThreshhold s t (.grow n k p nBig key leaf)) :
    Inv X root (after X s t (.grow n k p nBig key leaf)) := by
  obtain ⟨hp, -, -, hfresh⟩ := he
  obtain ⟨hlive, hunique⟩ := h.children_of_both hp
  have hleaf : target X leaf ∉ s.live := hfresh.2 _ List.mem_cons_self
  have hne : target X leaf ≠ target X nBig :=
    fun heq => (List.nodup_cons.1 hfresh.1).1 (heq ▸ List.mem_cons_self)
  obtain ⟨-, hsecond, -, -⟩ := h.of_both hp
  have hcount := (h.locking.node _ (h.locking.live t _ hsecond)).prefixCount
  -- The children of `nBig`.
  have hbig : ∀ j p', (Node.setChild { s.node (target X p) with word := newWord nBig.1.special } key
    leaf).child j = some p' →
      j = key ∧ p' = leaf ∨ j ≠ key ∧ (s.node (target X p)).child j = some p' := by
    intro j p' hp'
    by_cases hj : j = key
    · subst hj
      simp only [Node.setChild, Function.update_self, Option.some.injEq] at hp'
      exact .inl ⟨rfl, hp'.symm⟩
    · simp only [Node.setChild, Function.update_of_ne hj] at hp'
      exact .inr ⟨hj, hp'⟩
  refine h.replace hp (.inl rfl) hfresh (by simp) (fun e he => ?_)
    (fun e he j p' hp' => ?_) fun e he e' he' j j' p' p'' hp' hp'' heq => ?_
  · rcases List.mem_pair.1 he with rfl | rfl
    · exact ⟨not_isObsolete_newWord _, Node.sound_new rfl (Nat.two_pow_pos 32)⟩
    · refine ⟨not_isObsolete_newWord _, ?_⟩
      apply Node.sound_new
      · rfl
      · simpa only [Node.setChild] using hcount
  · rcases List.mem_pair.1 he with rfl | rfl
    · cases hp'
    · rcases hbig j p' hp' with ⟨-, rfl⟩ | ⟨-, hp'⟩
      · exact .inl ⟨List.mem_cons_self, hne⟩
      · exact .inr ⟨j, p', hp', rfl⟩
  · rcases List.mem_pair.1 he with rfl | rfl
    · cases hp'
    · rcases List.mem_pair.1 he' with rfl | rfl
      · cases hp''
      · refine ⟨rfl, ?_⟩
        rcases hbig j p' hp' with ⟨rfl, rfl⟩ | ⟨-, hold⟩
        · rcases hbig j' p'' hp'' with ⟨rfl, -⟩ | ⟨-, hold'⟩
          · rfl
          · rw [heq] at hleaf
            exact absurd (hlive j' p'' hold') hleaf
        · rcases hbig j' p'' hp'' with ⟨-, rfl⟩ | ⟨-, hold'⟩
          · rw [← heq] at hleaf
            exact absurd (hlive j p' hold) hleaf
          · exact hunique j j' p' p'' hold hold' heq

/-- The children of a new node to which two are added. -/
theorem child_of_pair {q a a' p' : Ptr} {m : ℕ} {b b' j : UInt8}
    (hp' : (((Node.new q m).setChild b a).setChild b' a').child j = some p') :
    j = b ∧ p' = a ∨ j = b' ∧ p' = a' := by
  by_cases hj : j = b'
  · subst hj
    simp only [Node.setChild, Function.update_self, Option.some.injEq] at hp'
    exact .inr ⟨rfl, hp'.symm⟩
  · simp only [Node.setChild, Function.update_of_ne hj] at hp'
    by_cases hjb : j = b
    · subst hjb
      rw [Function.update_self, Option.some.injEq] at hp'
      exact .inl ⟨rfl, hp'.symm⟩
    · rw [Function.update_of_ne hjb] at hp'
      cases hp'

theorem unique_of_pair {q a a' p' p'' : Ptr} {m : ℕ} {b b' j j' : UInt8}
    (hne : target X a ≠ target X a')
    (hp' : (((Node.new q m).setChild b a).setChild b' a').child j = some p')
    (hp'' : (((Node.new q m).setChild b a).setChild b' a').child j' = some p'')
    (heq : target X p' = target X p'') : j = j' := by
  rcases child_of_pair hp' with ⟨rfl, rfl⟩ | ⟨rfl, rfl⟩
  · rcases child_of_pair hp'' with ⟨rfl, -⟩ | ⟨-, rfl⟩
    · rfl
    · exact absurd heq hne
  · rcases child_of_pair hp'' with ⟨-, rfl⟩ | ⟨rfl, -⟩
    · exact absurd heq.symm hne
    · rfl

theorem splitLeaf {k c d : UInt8} {p n4 leaf newNextNodeLeaf : Ptr} {prefixLength : ℕ}
    (h : Inv X root s)
    (he : Enabled X root startGCThreshhold s t (.splitLeaf n k p n4 c leaf d newNextNodeLeaf
      prefixLength)) :
    Inv X root (after X s t (.splitLeaf n k p n4 c leaf d newNextNodeLeaf prefixLength)) := by
  obtain ⟨hp, -, -, -, hlength, -, hfresh⟩ := he
  have hnodup := hfresh.1
  simp only [List.nodup_cons, List.mem_cons, List.not_mem_nil, or_false, not_or] at hnodup
  obtain ⟨⟨hll, hl4⟩, hn4, -⟩ := hnodup
  refine h.replace hp (.inr (.inr rfl)) hfresh (by simp) (fun e he => ?_) (fun e he j p' hp' => ?_)
    fun e he e' he' j j' p' p'' hp' hp'' heq => ?_
  all_goals simp only [List.mem_cons, List.not_mem_nil, or_false] at he
  · rcases he with rfl | rfl | rfl
    · exact ⟨not_isObsolete_newWord _, Node.sound_new rfl (Nat.two_pow_pos 32)⟩
    · exact ⟨not_isObsolete_newWord _, Node.sound_new rfl (Nat.two_pow_pos 32)⟩
    · exact ⟨not_isObsolete_newWord _, Node.sound_new rfl hlength⟩
  · rcases he with rfl | rfl | rfl
    · cases hp'
    · cases hp'
    · left
      rcases child_of_pair hp' with ⟨-, rfl⟩ | ⟨-, rfl⟩
      · exact ⟨List.mem_cons_self, hl4⟩
      · exact ⟨List.mem_cons_of_mem _ List.mem_cons_self, hn4⟩
  · simp only [List.mem_cons, List.not_mem_nil, or_false] at he'
    rcases he with rfl | rfl | rfl
    · cases hp'
    · cases hp'
    · rcases he' with rfl | rfl | rfl
      · cases hp''
      · cases hp''
      · exact ⟨rfl, unique_of_pair hll hp' hp'' heq⟩

/-- A node that is relocated with a shorter prefix. -/
theorem sound_relocated {p q : Ptr} {m : ℕ}
    (h : Inv X root s) (ho : (s.thread t).Owns X (target X p))
    (hq : q.1.special = p.1.special) (hm : m < (s.node (target X p)).prefixCount) :
    Node.Sound (target X q) { s.node (target X p) with
      word := (s.node (target X p)).word + 0b10, prefixCount :=
  (s.node (target X p)).prefixCount - (m + 1) } := by
  have hheld := h.locking.held t _ ho
  have hsound := h.locking.node _ (h.locking.live t _ ho)
  have hage := hsound.age (Bool.eq_false_iff.2 hheld.not_isObsolete)
  have hlt := hsound.prefixCount
  have hheld' : (s.node (target X p)).word.toNat % 4 = 2 := hheld
  refine ⟨lt_of_le_of_lt (Nat.sub_le _ _) hlt, fun _ => ?_⟩
  have hsame : age (target X q) ((s.node (target X p)).word + 0b10) = age (target X p)
    ((s.node (target X p)).word + 0b10) := by
    have hspecial : (target X q).special = (target X p).special := hq
    rw [age, age, hspecial]
  have hadd : age (target X p) ((s.node (target X p)).word + 0b10) = age (target X p)
    (s.node (target X p)).word + 2 :=
    age_add (by simp only [UInt64.reduceToNat]; omega)
  simp only [hsame, hadd]
  omega

theorem splitPrefix {k b c : UInt8} {p newNode leaf newCurNode : Ptr} {m : ℕ} (h : Inv X root s)
    (he : Enabled X root startGCThreshhold s t (.splitPrefix n k p newNode b leaf c newCurNode m)) :
    Inv X root (after X s t (.splitPrefix n k p newNode b leaf c newCurNode m)) := by
  obtain ⟨hp, -, -, hspecial, hm, -, hfresh⟩ := he
  obtain ⟨hlive, hunique⟩ := h.children_of_both hp
  obtain ⟨-, hsecond, -, -⟩ := h.of_both hp
  have hcount := (h.locking.node _ (h.locking.live t _ hsecond)).prefixCount
  have hnodup := hfresh.1
  simp only [List.nodup_cons, List.mem_cons, List.not_mem_nil, or_false, not_or] at hnodup
  obtain ⟨⟨hlc, hln⟩, hcn, -⟩ := hnodup
  have hleaf : target X leaf ∉ s.live := hfresh.2 _ (by simp)
  have hcur : target X newCurNode ∉ s.live := hfresh.2 _ (by simp)
  -- A child of the node that is relocated is neither of the two that `newNode` gets.
  have hmixed : ∀ j j' p' p'', (s.node (target X p)).child j = some p' →
      (((Node.new newNode m).setChild b leaf).setChild c newCurNode).child j' = some p'' →
      target X p' ≠ target X p'' := by
    intro j j' p' p'' hp' hp'' heq
    have hin := hlive j p' hp'
    rw [heq] at hin
    rcases child_of_pair hp'' with ⟨-, rfl⟩ | ⟨-, rfl⟩
    · exact hleaf hin
    · exact hcur hin
  refine h.replace hp (.inr (.inl rfl)) hfresh (by simp) (fun e he => ?_) (fun e he j p' hp' => ?_)
    fun e he e' he' j j' p' p'' hp' hp'' heq => ?_
  all_goals simp only [List.mem_cons, List.not_mem_nil, or_false] at he
  · rcases he with rfl | rfl | rfl
    · exact ⟨not_isObsolete_newWord _, Node.sound_new rfl (Nat.two_pow_pos 32)⟩
    · exact ⟨not_isObsolete_of_free (h.locking.held t _ hsecond).free, h.sound_relocated
        hsecond hspecial hm⟩
    · exact ⟨not_isObsolete_newWord _, Node.sound_new rfl (hm.trans hcount)⟩
  · rcases he with rfl | rfl | rfl
    · cases hp'
    · exact .inr ⟨j, p', hp', rfl⟩
    · left
      rcases child_of_pair hp' with ⟨-, rfl⟩ | ⟨-, rfl⟩
      · exact ⟨List.mem_cons_self, hln⟩
      · exact ⟨List.mem_cons_of_mem _ List.mem_cons_self, hcn⟩
  · simp only [List.mem_cons, List.not_mem_nil, or_false] at he'
    rcases he with rfl | rfl | rfl
    · cases hp'
    · rcases he' with rfl | rfl | rfl
      · cases hp''
      · exact ⟨rfl, hunique j j' p' p'' hp' hp'' heq⟩
      · exact absurd heq (hmixed j j' p' p'' hp' hp'')
    · rcases he' with rfl | rfl | rfl
      · cases hp''
      · exact absurd heq.symm (hmixed j' j p'' p' hp'' hp')
      · exact ⟨rfl, unique_of_pair hlc hp' hp'' heq⟩

end Building

/-! ### Writing -/

section Writing

variable {rest : List Act}

theorem todo_of_writing {todo : List Act} (hp : (s.thread t).phase = .writing todo) :
    (s.thread t).todo = todo := by
  rw [Thread.todo, hp]

/-- What is retired by a thread that goes on writing. -/
theorem retired_of_writing {a : Act} (hp : (s.thread t).phase = .writing (a :: rest))
    (ha : a.marked = none) :
    Thread.retired X { s.thread t with phase := .writing rest } = (s.thread t).retired X := by
  rw [Thread.retired, Thread.retired, todo_of_writing hp, List.filterMap_cons_none ha,
    (by rw [Thread.current, hp] : (s.thread t).current = []),
    (by rw [Thread.labels, hp] : (s.thread t).labels = (s.thread t).deletionList.labels)]
  rfl

theorem owns_of_tail {a : Act} (hp : (s.thread t).phase = .writing (a :: rest)) {m : Ref}
    (hm : Thread.Owns X { s.thread t with phase := .writing rest } m) : (s.thread t).Owns X m := by
  rw [Thread.Owns, hp]
  exact hm.imp (List.mem_cons_of_mem _) (List.mem_cons_of_mem _)

theorem ownsFirst_of_tail {a : Act} (hp : (s.thread t).phase = .writing (a :: rest)) {m : Ref}
    (hm : Thread.OwnsFirst { s.thread t with phase := .writing rest } m) :
    (s.thread t).OwnsFirst m := by
  rw [Thread.OwnsFirst, hp]
  exact List.mem_cons_of_mem _ hm

theorem sound_of_tail {a : Act} (h : Inv X root s)
    (hp : (s.thread t).phase = .writing (a :: rest)) :
    Thread.Sound X { s.thread t with phase := .writing rest } := by
  have hordered := (h.locking.thread t).ordered
  rw [todo_of_writing hp] at hordered
  exact ⟨hordered.tail, fun _ _ _ hp => nomatch hp⟩

theorem unlock (h : Inv X root s)
    (he : Enabled X root startGCThreshhold s t (.write (.unlock n) rest)) :
    Inv X root (after X s t (.write (.unlock n) rest)) := by
  have hp : (s.thread t).phase = .writing (.unlock n :: rest) := he
  have htodo := todo_of_writing hp
  have hordered := (h.locking.thread t).ordered
  rw [htodo] at hordered
  have hmem : .unlock n ∈ (s.thread t).todo := by
    rw [htodo]
    exact List.mem_cons_self
  obtain ⟨howns, hfirst⟩ := Thread.owns_of_unlock (X := X) hmem
  have hage := h.locking.first t n hfirst
  refine h.fetchAdd rfl rfl rfl h.counted (h.locking.release rfl rfl rfl howns (fun m hm =>
    ⟨?_, owns_of_tail hp hm⟩) (fun m hm => ownsFirst_of_tail hp hm) (h.locking.sound_unlock hfirst)
    (h.sound_of_tail hp)) (age_lt_add ?_ ?_) (fun ho => ?_) (doomed_add_two rfl fun m => ?_)
    (fun m k q => ?_) (retired_of_writing hp rfl) (fun hread' _ => ?_)
    (h.epochs.goOn rfl rfl rfl (by rw [hp]; rfl) rfl (by rw [Thread.labels, hp]))
  · rintro rfl
    exact hm.elim hordered.1 hordered.2.1
  · simp only [UInt64.reduceToNat]
    omega
  · decide
  · rwa [isObsolete_add_two]
  · rw [htodo]
    simp [Thread.todo]
  · rw [htodo]
    simp [Thread.todo]
  · exact hread'.goto (.inl ⟨rfl, rfl, rfl⟩) (fun hout => nomatch hout) (fun _ _ =>
      Phase.noConfusion) fun _ _ _ => Phase.noConfusion

theorem obsolete (h : Inv X root s)
    (he : Enabled X root startGCThreshhold s t (.write (.obsolete n) rest)) :
    Inv X root (after X s t (.write (.obsolete n) rest)) := by
  have hp : (s.thread t).phase = .writing (.obsolete n :: rest) := he
  have htodo := todo_of_writing hp
  have hordered := (h.locking.thread t).ordered
  rw [htodo] at hordered
  have hmem : .obsolete n ∈ (s.thread t).todo := by
    rw [htodo]
    exact List.mem_cons_self
  have howns : (s.thread t).Owns X n := Thread.owns_of_obsolete hmem
  have hheld := h.locking.held t n howns
  have hage := (h.locking.node n (h.locking.live t n howns)).age
    (Bool.eq_false_iff.2 hheld.not_isObsolete)
  refine h.fetchAdd rfl rfl rfl h.counted (h.locking.release rfl rfl rfl howns (fun m hm =>
    ⟨?_, owns_of_tail hp hm⟩) (fun m hm => ownsFirst_of_tail hp hm) (h.locking.sound_obsolete howns)
    (h.sound_of_tail hp)) (age_lt_add ?_ ?_) (fun _ => hheld.isObsolete) (fun m => ?_)
    (fun m k q => ?_) (retired_of_writing hp rfl) (fun hread' _ => ?_)
    (h.epochs.goOn rfl rfl rfl (by rw [hp]; rfl) rfl (by rw [Thread.labels, hp]))
  · rintro rfl
    exact hm.elim hordered.1 hordered.2.1
  · simp only [UInt64.reduceToNat]
    omega
  · decide
  · unfold World.DoomedBy
    rw [htodo]
    by_cases hm : m = n
    · subst hm
      refine iff_of_true (.inl ?_) (.inr List.mem_cons_self)
      show Art.isObsolete (Function.update s.node m _ m).word = true
      rw [Function.update_self]
      exact hheld.isObsolete
    · have hnode : ((after X s t (.write (.obsolete n) rest)).node m) = s.node m :=
        Function.update_of_ne hm ..
      rw [hnode]
      simp [Thread.todo, hm]
  · rw [htodo]
    simp [Thread.todo]
  · exact hread'.goto (.inl ⟨rfl, rfl, rfl⟩) (fun hout => nomatch hout) (fun _ _ =>
      Phase.noConfusion) fun _ _ _ => Phase.noConfusion

theorem change {k : UInt8} {q : Ptr} (h : Inv X root s)
    (he : Enabled X root startGCThreshhold s t (.write (.change n k q) rest)) :
    Inv X root (after X s t (.write (.change n k q) rest)) := by
  have hp : (s.thread t).phase = .writing (.change n k q :: rest) := he
  have htodo := todo_of_writing hp
  have hordered := (h.locking.thread t).ordered
  rw [htodo] at hordered
  have howns : (s.thread t).Owns X n :=
    h.locking.owns_of_publishes ⟨q, by rw [htodo]; exact List.mem_cons_self, rfl⟩
  have hnot : ¬Free (s.node n).word := (h.locking.held t n howns).not_free
  have hsame : ∀ m, ((after X s t (.write (.change n k q) rest)).node m).word = (s.node m).word ∧
      ((after X s t (.write (.change n k q) rest)).node m).prefixCount =
      (s.node m).prefixCount := by
    intro m
    show (Function.update s.node n _ m).word = _ ∧ (Function.update s.node n _ m).prefixCount = _
    by_cases hm : m = n
    · subst hm
      rw [Function.update_self]
      exact ⟨rfl, rfl⟩
    · rw [Function.update_of_ne hm]
      exact ⟨rfl, rfl⟩
  have ha : Advances s (after X s t (.write (.change n k q) rest)) := .of_child rfl hnot
  refine ⟨h.locking.quiet rfl (fun m _ => (hsame m).1) (fun m hm => ?_) h.locking.live (fun m hm =>
    owns_of_tail hp hm) (fun m hm => ownsFirst_of_tail hp hm) (h.sound_of_tail hp),
    h.graph.change hordered htodo rfl rfl rfl rfl (retired_of_writing hp rfl),
    h.reading_of rfl ha (fun u _ => (h.reading u).held) (fun u hu m ho => ?_) ?_,
    h.epochs.goOn rfl rfl rfl (by rw [hp]; rfl) rfl (by rw [Thread.labels, hp]), h.counted⟩
  · obtain ⟨h₁, h₂⟩ := h.locking.node m hm
    rw [← (hsame m).1, ← (hsame m).2] at h₂
    exact ⟨(hsame m).2 ▸ h₁, h₂⟩
  · have hne : m ≠ n := by
      rintro rfl
      exact hu (h.locking.unique u t m ho howns)
    exact congrArg Node.child (Function.update_of_ne hne ..)
  · have hread := h.reading t
    refine ⟨fun hout => (nomatch hout), hread.held, fun e he => ?_, fun l hl => ?_,
      fun _ _ hp => (nomatch hp), fun _ _ _ hp => (nomatch hp)⟩
    · rw [(hsame e.1).1]
      exact hread.versions e he
    · obtain ⟨hmem, hl⟩ := hread.links l hl
      refine ⟨hmem, fun hw => ?_⟩
      rw [(hsame l.node).1] at hw
      have hne : l.node ≠ n := by
        rintro heq
        have hfree := (hread.versions _ hmem).2.1
        rw [← hw, heq] at hfree
        exact hnot hfree
      have hnode : (after X s t (.write (.change n k q) rest)).node l.node = s.node l.node :=
        Function.update_of_ne hne ..
      rw [hnode]
      exact hl hw

/-- The label that `add` uses has the epoch that it is given. -/
theorem label_of_add {d : DeletionList .olc} {p : Ptr} {e : UInt64} {l : LabelDelete .olc}
    (hl : l ∈ (d.add p e).labels) : l.epoche = e ∨ l ∈ d.labels := by
  unfold DeletionList.add at hl
  split at hl
  · rw [List.mem_singleton.1 hl]
    exact .inl rfl
  · rename_i l' ls hd
    rw [hd]
    split_ifs at hl
    · rcases List.mem_cons.1 hl with rfl | hl
      · exact .inl rfl
      · exact .inr (List.mem_cons_of_mem _ hl)
    · rcases List.mem_cons.1 hl with rfl | hl
      · exact .inl rfl
      · exact .inr hl

theorem localEpoche_add {d : DeletionList .olc} {p : Ptr} {e : UInt64} :
    (d.add p e).localEpoche = d.localEpoche := by
  unfold DeletionList.add
  split
  · rfl
  · split_ifs <;> rfl

theorem mark {p : Ptr} (h : Inv X root s)
    (he : Enabled X root startGCThreshhold s t (.write (.mark p) rest)) :
    Inv X root (after X s t (.write (.mark p) rest)) := by
  have hp : (s.thread t).phase = .writing (.mark p :: rest) := he
  have htodo := todo_of_writing hp
  have hlabels : (s.thread t).labels = (s.thread t).deletionList.labels := by rw [Thread.labels, hp]
  have hcurrent : (s.thread t).current = [] := by rw [Thread.current, hp]
  have hin : (s.thread t).phase.inside = true := by rw [hp]; rfl
  generalize hr : ({ s.thread t with
    phase := .writing rest
    deletionList := { (s.thread t).deletionList.add p s.currentEpoche with
      thresholdCounter := (s.thread t).deletionList.thresholdCounter + 1 } } : Thread) = r
  have hthread : (after X s t (.write (.mark p) rest)).thread = Function.update s.thread t r := by
    subst hr
    simp [after, act, World.setPhase, World.setThread]
  have hlabels' : r.labels = ((s.thread t).deletionList.add p s.currentEpoche).labels := by
    subst hr
    rfl
  have hlocal : r.localEpoche = (s.thread t).localEpoche := by
    subst hr
    exact localEpoche_add
  have hretired : (r.retired X).Perm ((s.thread t).retired X) := by
    refine List.Perm.map _ ?_
    rw [htodo, hcurrent, hlabels, hlabels']
    subst hr
    have hadd : ((s.thread t).deletionList.add p s.currentEpoche).pending.Perm
      (p :: (s.thread t).deletionList.pending) :=
      Heap.pending_add
    exact (hadd.append_left (rest.filterMap Act.marked)).trans List.perm_middle
  have hr' : r.phase = .writing rest ∧ r.versions = (s.thread t).versions ∧
    r.links = (s.thread t).links ∧
      r.held = (s.thread t).held := by
    subst hr
    exact ⟨rfl, rfl, rfl, rfl⟩
  obtain ⟨hphase, hversions, hlinks, hheld⟩ := hr'
  have htodo' : r.todo = rest := by rw [Thread.todo, hphase]
  have hcurrent' : r.current = [] := by rw [Thread.current, hphase]
  have hne : ∀ ph : Phase, ph ≠ .writing rest → r.phase ≠ ph :=
    fun ph hph heq => hph (heq.symm.trans hphase)
  have howns : ∀ m, r.Owns X m → (s.thread t).Owns X m := by
    intro m hm
    rw [Thread.Owns, hphase] at hm
    exact owns_of_tail hp hm
  have hfirst : ∀ m, r.OwnsFirst m → (s.thread t).OwnsFirst m := by
    intro m hm
    rw [Thread.OwnsFirst, hphase] at hm
    exact ownsFirst_of_tail hp hm
  have hsound : r.Sound X := by
    refine ⟨?_, fun _ _ _ hp' => absurd hp' (hne _ Phase.noConfusion)⟩
    rw [htodo']
    exact (h.sound_of_tail hp).ordered
  have hdoomed : ∀ m,
      Art.isObsolete (s.node m).word = true ∨ .obsolete m ∈ r.todo ↔ s.DoomedBy t m := by
    intro m
    rw [World.DoomedBy, htodo, htodo']
    simp
  have hreading : r.Reading root s := by
    refine (h.reading t).goto (.inl ⟨hversions, hlinks, hheld⟩) (fun hout => ?_) (fun _ _ =>
      hne _ Phase.noConfusion) fun _ _ _ => hne _ Phase.noConfusion
    rw [hphase] at hout
    cases hout
  refine ⟨h.locking.quiet hthread (fun _ _ => rfl) h.locking.node h.locking.live
    howns hfirst hsound, h.graph.congr hthread rfl (fun _ => rfl) (fun _ => id) hdoomed
    (fun m k q => by rw [htodo, htodo']; simp) hretired,
    h.reading_of hthread (.of_eq rfl) (fun u _ => (h.reading u).held)
      (fun _ _ _ _ => rfl) ?_, ?_, h.counted⟩
  · exact hreading.mono (X := X) h.graph.standing_root.1 (.of_eq rfl) hreading.held fun _ _ => rfl
  · refine h.epochs.step hthread le_rfl (fun u hu => hu)
      (fun _ => h.epochs.registered t (by rw [hp]; exact Phase.noConfusion)) (fun e he =>
      absurd he (hne _ Phase.noConfusion)) (fun _ => by rw [hlocal]; exact h.epochs.inside t hin)
      (fun x hx => .inl ⟨hheld ▸ hx, hlocal⟩) (fun l hl => ?_)
      (fun q hq => by rw [hcurrent'] at hq; cases hq) (fun rest e hp' =>
      absurd hp' (hne _ Phase.noConfusion)) fun e kept nodes rest hp' =>
      absurd hp' (hne _ Phase.noConfusion)
    rw [hlabels'] at hl
    rcases label_of_add hl with heq | hl
    · -- what is marked now is not older than any thread that is inside a call
      rw [heq]
      exact ⟨le_rfl, fun u x hx _ => h.epochs.inside u (h.inside_of_held hx)⟩
    · rw [← hlabels] at hl
      exact ⟨h.epochs.label t l hl, fun u x hx => h.epochs.safe u t x hx l hl⟩

end Writing

/-! ### Cleaning up -/

/-- A step of the loops over the deletion lists and over the labels. -/
theorem loop (h : Inv X root s) {ph : Phase} (htodo : (s.thread t).todo = [])
    (hout : (s.thread t).phase.inside = false) (hidle : (s.thread t).phase ≠ .idle)
    (hph : (∃ rest e, ph = .scanning rest e) ∨ ∃ e kept nodes rest, ph = .freeing e kept nodes rest)
    (hretired : (Thread.retired X { s.thread t with phase := ph }).Perm ((s.thread t).retired X))
    (hlabel : ∀ l ∈ Thread.labels { s.thread t with phase := ph }, l ∈ (s.thread t).labels)
    (hcurrent : ∀ p ∈ Thread.current { s.thread t with phase := ph }, ∀ u,
      target X p ∉ (s.thread u).held)
    (hscanning : ∀ rest e, ph = .scanning rest e → ∀ u, ∀ x ∈ (s.thread u).held,
      x ∈ (s.thread t).retired X → u ∈ rest ∨ e.toNat ≤ (s.thread u).localEpoche.toNat)
    (hfreeing : ∀ e kept nodes rest, ph = .freeing e kept nodes rest → ∀ u, ∀ x ∈ (s.thread u).held,
      x ∈ (s.thread t).retired X → e.toNat ≤ (s.thread u).localEpoche.toNat) :
    Inv X root (s.setPhase t ph) := by
  obtain ⟨hv, hl, hh⟩ := (h.reading t).outside hout
  have hto : Thread.todo { s.thread t with phase := ph } = [] ∧
      (∀ n, ¬Thread.Owns X { s.thread t with phase := ph } n) ∧ (∀ n k p, ph ≠ .both n k p) ∧
      (∀ n v, ph ≠ .holding n v) ∧
      (∀ e, ph ≠ .entering e) ∧ ph.inside = false := by
    rcases hph with ⟨rest, e, rfl⟩ | ⟨e, kept, nodes, rest, rfl⟩
    · exact ⟨rfl, fun n ho => ho.elim, fun n k p => Phase.noConfusion, fun n v => Phase.noConfusion,
        fun e => Phase.noConfusion, rfl⟩
    · exact ⟨rfl, fun n ho => ho.elim, fun n k p => Phase.noConfusion, fun n v => Phase.noConfusion,
        fun e => Phase.noConfusion, rfl⟩
  obtain ⟨hnil, hnot, hboth, hholding, hentering, hinside⟩ := hto
  refine h.calm rfl rfl rfl h.counted htodo hnil (fun n ho => absurd ho (hnot n))
    (fun n ho => absurd (Thread.owns_of_first ho) (hnot n)) hboth hretired
    ((h.reading t).goto (.inl ⟨rfl, rfl, rfl⟩) (fun _ => ⟨hv, hl, hh⟩) hholding hboth) ?_
  refine h.epochs.step rfl le_rfl (fun u hu => hu) (fun _ => h.epochs.registered t hidle)
    (fun e he => absurd he (hentering e)) (fun hin => ?_) (fun x hx => .inl ⟨hx, rfl⟩)
    (fun l hl => ?_) hcurrent (fun rest e hp u x hx hr => ?_)
    fun e kept nodes rest hp u x hx hr => ?_
  · have hin' : ph.inside = true := hin
    rw [hinside] at hin'
    cases hin'
  · exact ⟨h.epochs.label t l (hlabel l hl), fun u x hx => h.epochs.safe u t x hx l (hlabel l hl)⟩
  · exact hscanning rest e hp u x hx (hretired.mem_iff.1 hr)
  · exact hfreeing e kept nodes rest hp u x hx (hretired.mem_iff.1 hr)

theorem startScan (h : Inv X root s) (he : Enabled X root startGCThreshhold s t .startScan) :
    Inv X root (after X s t .startScan) := by
  have hp : (s.thread t).phase = .withdrawn := he
  have hcalm : (s.thread t).phase.Calm := by rw [hp]; trivial
  have hlabels : (s.thread t).labels = (s.thread t).deletionList.labels := hcalm.labels
  have hretired : (s.thread t).retired X = ((s.thread t).deletionList.labels.flatMap
    LabelDelete.nodes).map (target X) := by
    rw [Thread.retired, hcalm.todo, hcalm.current, hlabels]
    rfl
  refine h.loop hcalm.todo (by rw [hp]; rfl) (by rw [hp]; exact Phase.noConfusion)
    (.inl ⟨_, _, rfl⟩) ?_ (fun l hl => ?_) (fun p hp => (List.not_mem_nil hp).elim)
    (fun rest e heq u x hx _ => ?_) fun e kept nodes rest heq => nomatch heq
  · rw [hretired]
    exact .refl _
  · rw [hlabels]
    exact hl
  · cases heq
    refine .inl (h.epochs.registered u fun hidle => ?_)
    have hin := h.inside_of_held hx
    rw [hidle] at hin
    cases hin

theorem scan {u : ℕ} {rest : List ℕ} {e : UInt64} (h : Inv X root s)
    (he : Enabled X root startGCThreshhold s t (.scan u rest e)) :
    Inv X root (after X s t (.scan u rest e)) := by
  have hp : (s.thread t).phase = .scanning (u :: rest) e := he
  have htodo : (s.thread t).todo = [] := by rw [Thread.todo, hp]
  have hcurrent : (s.thread t).current = [] := by rw [Thread.current, hp]
  have hlabels : (s.thread t).labels = (s.thread t).deletionList.labels := by rw [Thread.labels, hp]
  refine h.loop htodo (by rw [hp]; rfl) (by rw [hp]; exact Phase.noConfusion) (.inl ⟨_, _, rfl⟩) ?_
    (fun l hl => ?_) (fun p hp => (List.not_mem_nil hp).elim) (fun rest' e' heq v x hx hr => ?_)
    fun e kept nodes rest heq => nomatch heq
  · rw [Thread.retired, Thread.retired, htodo, hcurrent, hlabels]
    exact .refl _
  · rw [hlabels]
    exact hl
  · cases heq
    rcases h.epochs.scanning v t x _ _ hx hr hp with hv | hle
    · rcases List.mem_cons.1 hv with rfl | hv
      · right
        split_ifs with hlt
        · exact le_rfl
        · exact Nat.not_lt.1 fun hlt' => hlt (UInt64.lt_iff_toNat_lt.2 hlt')
      · exact .inl hv
    · right
      split_ifs with hlt
      · exact (UInt64.lt_iff_toNat_lt.1 hlt).le.trans hle
      · exact hle

theorem startFree {e : UInt64} (h : Inv X root s)
    (he : Enabled X root startGCThreshhold s t (.startFree e)) :
    Inv X root (after X s t (.startFree e)) := by
  have hp : (s.thread t).phase = .scanning [] e := he
  have htodo : (s.thread t).todo = [] := by rw [Thread.todo, hp]
  have hcurrent : (s.thread t).current = [] := by rw [Thread.current, hp]
  have hlabels : (s.thread t).labels = (s.thread t).deletionList.labels := by rw [Thread.labels, hp]
  refine h.loop htodo (by rw [hp]; rfl) (by rw [hp]; exact Phase.noConfusion)
    (.inr ⟨_, _, _, _, rfl⟩) ?_ (fun l hl => ?_) (fun p hp => (List.not_mem_nil hp).elim)
    (fun rest e heq => nomatch heq) fun e' kept nodes rest heq u x hx hr => ?_
  · rw [Thread.retired, Thread.retired, htodo, hcurrent, hlabels]
    exact .refl _
  · rw [hlabels]
    exact hl
  · cases heq
    exact (h.epochs.scanning u t x _ _ hx hr hp).resolve_left List.not_mem_nil

theorem old {e : UInt64} {kept rest : List (LabelDelete .olc)} {l : LabelDelete .olc}
    (h : Inv X root s) (he : Enabled X root startGCThreshhold s t (.old e kept l rest)) :
    Inv X root (after X s t (.old e kept l rest)) := by
  obtain ⟨hp, hlt⟩ := he
  have htodo : (s.thread t).todo = [] := by rw [Thread.todo, hp]
  have hcurrent : (s.thread t).current = [] := by rw [Thread.current, hp]
  have hlabels : (s.thread t).labels = kept ++ l :: rest := by rw [Thread.labels, hp]
  have hmem : l ∈ (s.thread t).labels := by
    rw [hlabels]
    exact List.mem_append_right _ List.mem_cons_self
  refine h.loop htodo (by rw [hp]; rfl) (by rw [hp]; exact Phase.noConfusion)
    (.inr ⟨_, _, _, _, rfl⟩) ?_ (fun l' hl' => ?_) (fun p hpl u hheld => ?_) (fun rest e heq =>
    nomatch heq) fun e' kept' nodes' rest' heq u x hx hr => ?_
  · refine List.Perm.map _ ?_
    rw [htodo, hcurrent, hlabels, List.flatMap_append, List.flatMap_cons]
    show (l.nodes ++ (kept ++ rest).flatMap LabelDelete.nodes).Perm
      (kept.flatMap LabelDelete.nodes ++ (l.nodes ++ rest.flatMap LabelDelete.nodes))
    rw [List.flatMap_append, ← List.append_assoc, ← List.append_assoc]
    exact List.perm_append_comm.append_right _
  · rw [hlabels]
    rcases List.mem_append.1 hl' with hk | hr
    · exact List.mem_append_left _ hk
    · exact List.mem_append_right _ (List.mem_cons_of_mem _ hr)
  · -- a thread that holds the slot has an epoch that is older than the label
    have hin : InLabel X l (target X p) := ⟨p, hpl, rfl⟩
    have hsafe := h.epochs.safe u t _ hheld l hmem hin
    have hfreeing := h.epochs.freeing u t _ _ _ _ _ hheld (mem_retired_of_label hmem hin) hp
    have := UInt64.lt_iff_toNat_lt.1 hlt
    omega
  · cases heq
    exact h.epochs.freeing u t x _ _ _ _ hx hr hp

theorem young {e : UInt64} {kept rest : List (LabelDelete .olc)} {l : LabelDelete .olc}
    (h : Inv X root s) (he : Enabled X root startGCThreshhold s t (.young e kept l rest)) :
    Inv X root (after X s t (.young e kept l rest)) := by
  obtain ⟨hp, -⟩ := he
  have htodo : (s.thread t).todo = [] := by rw [Thread.todo, hp]
  have hcurrent : (s.thread t).current = [] := by rw [Thread.current, hp]
  have hlabels : (s.thread t).labels = kept ++ [l] ++ rest := by
    rw [Thread.labels, hp, List.append_assoc]
    rfl
  refine h.loop htodo (by rw [hp]; rfl) (by rw [hp]; exact Phase.noConfusion)
    (.inr ⟨_, _, _, _, rfl⟩) ?_ (fun l' hl' => ?_) (fun p hp => (List.not_mem_nil hp).elim)
    (fun rest e heq => nomatch heq) fun e' kept' nodes' rest' heq u x hx hr => ?_
  · rw [Thread.retired, Thread.retired, htodo, hcurrent, hlabels]
    exact .refl _
  · rw [hlabels]
    exact hl'
  · cases heq
    exact h.epochs.freeing u t x _ _ _ _ hx hr hp

theorem done {e : UInt64} {kept : List (LabelDelete .olc)} (h : Inv X root s)
    (he : Enabled X root startGCThreshhold s t (.done e kept)) :
    Inv X root (after X s t (.done e kept)) := by
  have hp : (s.thread t).phase = .freeing e kept [] [] := he
  have htodo : (s.thread t).todo = [] := by rw [Thread.todo, hp]
  have hcurrent : (s.thread t).current = [] := by rw [Thread.current, hp]
  have hlabels : kept = (s.thread t).labels := by
    rw [Thread.labels, hp]
    exact (List.append_nil kept).symm
  have hout := (h.reading t).outside (by rw [hp]; rfl)
  exact h.goto rfl rfl rfl le_rfl h.counted rfl htodo hcurrent trivial hlabels
    (fun hne => absurd rfl hne) (fun e he => nomatch he) (fun hin => nomatch hin) (.inr hout)
    (fun _ => hout) (.inr rfl)

/-- What is freed is held by no thread. -/
theorem not_held_of_free {e : UInt64} {kept rest : List (LabelDelete .olc)} {p : Ptr}
    {nodes : List Ptr} (h : Inv X root s)
    (he : Enabled X root startGCThreshhold s t (.free e kept p nodes rest)) (u : ℕ) :
    target X p ∉ (s.thread u).held := by
  have hp : (s.thread t).phase = .freeing e kept (p :: nodes) rest := he
  refine h.epochs.current u t p ?_
  rw [Thread.current, hp]
  exact List.mem_cons_self

theorem free {e : UInt64} {kept rest : List (LabelDelete .olc)} {p : Ptr} {nodes : List Ptr}
    (h : Inv X root s) (he : Enabled X root startGCThreshhold s t (.free e kept p nodes rest)) :
    Inv X root (after X s t (.free e kept p nodes rest)) := by
  have hp : (s.thread t).phase = .freeing e kept (p :: nodes) rest := he
  have htodo : (s.thread t).todo = [] := by rw [Thread.todo, hp]
  have hcurrent : (s.thread t).current = p :: nodes := by rw [Thread.current, hp]
  have hlabels : (s.thread t).labels = kept ++ rest := by rw [Thread.labels, hp]
  have hretired : ((s.thread t).retired X).Perm
      (target X p :: Thread.retired X { s.thread t with phase := .freeing e kept nodes rest }) := by
    rw [Thread.retired, htodo, hcurrent, hlabels]
    exact .refl _
  have hx : target X p ∈ (s.thread t).retired X := hretired.mem_iff.2 List.mem_cons_self
  have hobsolete : isObsolete (s.node (target X p)).word = true := by
    refine (h.graph.retired t _ hx).2.2.resolve_right ?_
    rw [htodo]
    exact List.not_mem_nil
  have hne : ∀ u m, (s.thread u).Owns X m → m ≠ target X p := by
    rintro u m ho rfl
    exact (h.locking.held u _ ho).not_isObsolete hobsolete
  have hkeeps : ∀ m ∈ s.live, m ≠ target X p → m ∈ s.live.erase (target X p) := fun m hm hmp =>
    Finset.mem_erase.2 ⟨hmp, hm⟩
  have hkept : ∀ u, ∀ m ∈ (s.thread u).held, m ∈ s.live.erase (target X p) := by
    refine fun u m hm => hkeeps m ((h.reading u).held m hm) ?_
    rintro rfl
    exact h.not_held_of_free he u hm
  refine ⟨h.locking.quiet rfl (fun _ _ => rfl) (fun m hm =>
    h.locking.node m (Finset.mem_of_mem_erase hm)) (fun u m ho => hkeeps m (h.locking.live u m ho)
    (hne u m ho)) (fun m hm => hm.elim) (fun m hm => hm.elim) ⟨trivial, fun _ _ _ hp => nomatch hp⟩,
    h.graph.free htodo rfl rfl rfl rfl hretired, h.reading_of rfl (.of_eq rfl) (fun u _ => hkept u)
    (fun _ _ _ _ => rfl) ?_, ?_, h.counted⟩
  · have hout := (h.reading t).outside (by rw [hp]; rfl)
    have hread : Thread.Reading root (after X s t (.free e kept p nodes rest)) (s.thread t) :=
      (h.reading t).mono (X := X) h.graph.standing_root.1 (.of_eq rfl) (hkept t) fun _ _ => rfl
    exact hread.goto (.inl ⟨rfl, rfl, rfl⟩) (fun _ => hout) (fun _ _ => Phase.noConfusion)
      fun _ _ _ => Phase.noConfusion
  · refine h.epochs.step rfl le_rfl (fun u hu => hu) (fun _ =>
      h.epochs.registered t (by rw [hp]; exact Phase.noConfusion))
      (fun e he => nomatch he) (fun hin => nomatch hin) (fun x hx => .inl ⟨hx, rfl⟩)
      (fun l hl => ?_) (fun q hq u => ?_) (fun _ _ hp =>
      nomatch hp) fun e' kept' nodes' rest' heq u x hx hr => ?_
    · have hl' : l ∈ (s.thread t).labels := by
        rw [hlabels]
        exact hl
      exact ⟨h.epochs.label t l hl', fun u x hx => h.epochs.safe u t x hx l hl'⟩
    · refine h.epochs.current u t q ?_
      rw [hcurrent]
      exact List.mem_cons_of_mem _ hq
    · cases heq
      exact h.epochs.freeing u t x _ _ _ _ hx (hretired.mem_iff.2 (List.mem_cons_of_mem _ hr)) hp

/-- Every step keeps the invariant. -/
theorem step {m : Move} (h : Inv X root s) (he : Enabled X root startGCThreshhold s t m)
    (hlt : (after X s t m).increments < 2 ^ 64) : Inv X root (after X s t m) := by
  cases m with
  | register => exact h.register he
  | unregister => exact h.unregister he
  | loadEpoche => exact h.loadEpoche he
  | storeEpoche => exact h.storeEpoche he
  | readLock => exact h.readLock he
  | getChild => exact h.getChild he
  | check => exact h.check he
  | upgrade => exact h.upgrade he
  | lockChild => exact h.lockChild he
  | unlockBack => exact h.unlockBack he
  | restart => exact h.restart he
  | overflow => exact h.overflow he
  | insertInPlace => exact h.insertInPlace he
  | grow => exact h.grow he
  | splitPrefix => exact h.splitPrefix he
  | splitLeaf => exact h.splitLeaf he
  | write a rest =>
    cases a with
    | change => exact h.change he
    | unlock => exact h.unlock he
    | obsolete => exact h.obsolete he
    | mark => exact h.mark he
  | endInsert => exact h.endInsert he
  | abandon => exact h.abandon he
  | endLookup => exact h.endLookup he
  | countEpoche => exact h.countEpoche he hlt
  | keep => exact h.keep he
  | nothing => exact h.nothing he
  | withdraw => exact h.withdraw he
  | startScan => exact h.startScan he
  | scan => exact h.scan he
  | startFree => exact h.startFree he
  | old => exact h.old he
  | young => exact h.young he
  | free => exact h.free he
  | done => exact h.done he

end Inv

/-! ### Every run -/

theorem increments_le (m : Move) : s.increments ≤ (after X s t m).increments := by
  cases m with
  | countEpoche =>
    rw [after]
    split_ifs
    · exact Nat.le_succ _
    · exact le_rfl
  | write a =>
    cases a <;> exact le_rfl
  | _ => exact le_rfl

/-- By induction on the run. The epochs do not wrap around. -/
theorem Reach.inv (h : Reach X root startGCThreshhold s) (hlt : s.increments < 2 ^ 64) :
    Inv X root s := by
  induction h with
  | initial => exact .initial
  | step _ he ih => exact (ih (lt_of_le_of_lt (increments_le _) hlt)).step he hlt

/-- Steps that can be made one after another lead to a state that is reached. By induction on the
steps. -/
theorem Reach.of_allowed {ms : List (ℕ × Move)} (h : Reach X root startGCThreshhold s)
    (ha : Allowed X root startGCThreshhold s ms) : Reach X root startGCThreshhold (run X s ms) := by
  induction ms generalizing s with
  | nil => exact h
  | cons m ms ih => exact ih (h.step ha.1) ha.2

/-- No slot is freed while a thread is inside the call in which it read and validated a pointer to
it. -/
theorem Reach.reclamation_safe {u : ℕ} {e : UInt64} {kept rest : List (LabelDelete .olc)} {p : Ptr}
    {nodes : List Ptr} (h : Reach X root startGCThreshhold s) (hlt : s.increments < 2 ^ 64)
    (he : Enabled X root startGCThreshhold s u (.free e kept p nodes rest)) (t : ℕ) :
    target X p ∉ (s.thread t).held :=
  (h.inv hlt).not_held_of_free he t

/-- A pointer to an entry of the only bucket of a table. -/
def inOneBucket (index special : ℕ) : Ptr := (.ofFields index special false, (0, 0))

/-- A thread inserts two keys with the same first byte, and then cleans up while another thread
holds `n4`. -/
def insertTwo (root : Ref) (v : UInt64) (leaf newLeaf newNextNodeLeaf n4 : Ptr) : List (ℕ × Move) :=
  [ -- the first key
    (0, .register), (0, .loadEpoche), (0, .storeEpoche 0), (0, .readLock root),
    (0, .getChild ⟨root, v, 7, none⟩), (0, .upgrade ⟨root, v, 7, none⟩),
    (0, .insertInPlace root v 7 leaf), (0, .write (.change root 7 leaf) [.unlock root]),
    (0, .write (.unlock root) []), (0, .endInsert), (0, .countEpoche), (0, .keep),
    -- the second key
    (0, .loadEpoche), (0, .storeEpoche 0), (0, .readLock root),
    (0, .getChild ⟨root, v + 4, 7, some leaf⟩), (0, .check ⟨root, v + 4, 7, some leaf⟩ leaf),
    (0, .readLock ⟨0, 0, 0⟩), (0, .upgrade ⟨root, v + 4, 7, some leaf⟩),
    (0, .lockChild root (v + 4) 7 leaf 4),
    (0, .splitLeaf root 7 leaf n4 8 newLeaf 9 newNextNodeLeaf 0),
    (0, .write (.obsolete ⟨0, 0, 0⟩) [.mark leaf, .change root 7 n4, .unlock root]),
    (0, .write (.mark leaf) [.change root 7 n4, .unlock root]),
    (0, .write (.change root 7 n4) [.unlock root]), (0, .write (.unlock root) []), (0, .endInsert),
    (0, .countEpoche), (0, .withdraw),
    -- the other thread
    (1, .register), (1, .loadEpoche), (1, .storeEpoche 1), (1, .readLock root),
    (1, .getChild ⟨root, v + 8, 7, some n4⟩), (1, .check ⟨root, v + 8, 7, some n4⟩ n4),
    -- the rest of the cleanup, up to the call of `free`
    (0, .startScan), (0, .scan 0 [1] (UInt64.ofNat (2 ^ 64 - 1))),
    (0, .scan 1 [] (UInt64.ofNat (2 ^ 64 - 1))), (0, .startFree 1), (0, .old 1 [] ⟨[leaf], 0⟩ [])]

theorem Reach.reclamation_safe_two :
    ∃ s, Enabled (fun _ => oneBucket) ⟨3, 0, 0⟩ 0 s 0 (.free 1 [] (inOneBucket 0 0) [] []) ∧
      target (fun _ => oneBucket) (inOneBucket 0 1) ∈ (s.thread 1).held ∧
      ∀ t, target (fun _ => oneBucket) (inOneBucket 0 0) ∉ (s.thread t).held := by
  have ha : Allowed (fun _ => oneBucket) ⟨3, 0, 0⟩ 0 (.initial ⟨3, 0, 0⟩)
    (insertTwo ⟨3, 0, 0⟩ (newWord 3)
      (inOneBucket 0 0) (inOneBucket 1 0) (inOneBucket 2 0) (inOneBucket 0 1)) := by
    decide +kernel
  have he : Enabled (fun _ => oneBucket) ⟨3, 0, 0⟩ 0 (run (fun _ => oneBucket) (.initial ⟨3, 0, 0⟩)
      (insertTwo ⟨3, 0, 0⟩ (newWord 3) (inOneBucket 0 0) (inOneBucket 1 0) (inOneBucket 2 0)
      (inOneBucket 0 1)))
      0 (.free 1 [] (inOneBucket 0 0) [] []) := by
    decide +kernel
  exact ⟨_, he, by decide +kernel, (Reach.initial.of_allowed ha).reclamation_safe
    (by decide +kernel) he⟩

end TinyPointerTrees.Art.Reclamation
