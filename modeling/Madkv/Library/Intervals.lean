import Mathlib.Data.List.Basic
import Mathlib.Order.Lattice
import Mathlib.Tactic.Lemma

/-!
Sequences of time intervals and the newest-first search over them.

Elements of an arbitrary type carry an interval through two projections `lo`
and `hi` into a linear order. A query is a pair of times `c` and `r`, the
bounds of the interval that is asked about.

* `search`: a newest-first pass that accepts at the first hit and gives up
  after the first cut; `search_reverse_iff` reads it on the sequence itself.
* `Vouches`: some element that began before `r` satisfies the query and no
  later element was over before `c`. The search decides it
  (`search_reverse_iff_vouches`).
* `vouches_append`: elements that begin at or after `r` do not matter.
* `Trimmed`: a sequence cut at its head, an element that is settled being
  kept. A query that starts after every settled element does not see the cut
  (`Trimmed.vouches_iff`), which survives further growth (`Trimmed.snoc`) and
  further cuts (`Trimmed.trans`).
* `vouches_iff_of_splits`: the value of a query that meets no other element
  but its own.
-/

namespace Intervals

variable {α T : Type*}

/-! ### The newest-first search -/

/-- Accept at the first hit, give up after the first cut. A hit is looked for
before a cut. -/
def search (hit cut : α → Bool) : List α → Bool
  | [] => false
  | a :: l => hit a || (!cut a && search hit cut l)

lemma search_iff (hit cut : α → Bool) (l : List α) :
    search hit cut l = true ↔
      ∃ pre a post, l = pre ++ a :: post ∧ hit a = true ∧ ∀ b ∈ pre, cut b = false := by
  induction l with
  | nil => simp [search]
  | cons a l ih =>
      rw [search, Bool.or_eq_true, Bool.and_eq_true, ih]
      constructor
      · rintro (h | ⟨hc, pre, b, post, rfl, hb, hpre⟩)
        · exact ⟨[], a, l, rfl, h, by simp⟩
        · refine ⟨a :: pre, b, post, rfl, hb, ?_⟩
          intro x hx
          rcases List.mem_cons.mp hx with rfl | hx'
          · simpa using hc
          · exact hpre x hx'
      · rintro ⟨pre, b, post, heq, hb, hpre⟩
        cases pre with
        | nil =>
            obtain ⟨rfl, rfl⟩ := List.cons.inj heq
            exact Or.inl hb
        | cons x pre =>
            obtain ⟨rfl, rfl⟩ := List.cons.inj heq
            refine Or.inr ⟨by simp [hpre a (by simp)], pre, b, post, rfl, hb, ?_⟩
            exact fun y hy => hpre y (by simp [hy])

/-- The search run on the sequence from its newest element back. -/
lemma search_reverse_iff (hit cut : α → Bool) (l : List α) :
    search hit cut l.reverse = true ↔
      ∃ pre a post, l = pre ++ a :: post ∧ hit a = true ∧ ∀ b ∈ post, cut b = false := by
  rw [search_iff]
  constructor
  · rintro ⟨pre, a, post, heq, ha, hpre⟩
    refine ⟨post.reverse, a, pre.reverse, ?_, ha, by simpa using hpre⟩
    simpa using congrArg List.reverse heq
  · rintro ⟨pre, a, post, rfl, ha, hpost⟩
    exact ⟨post.reverse, a, pre.reverse, by simp, ha, by simpa using hpost⟩

/-- Two elements of a sequence ordered by `R` are equal or related one way. -/
lemma eq_or_rel_of_pairwise {R : α → α → Prop} {l : List α} (h : l.Pairwise R) {a b : α}
    (ha : a ∈ l) (hb : b ∈ l) : a = b ∨ R a b ∨ R b a := by
  induction h with
  | nil => simp at ha
  | cons hx _ ih =>
      rcases List.mem_cons.mp ha with rfl | ha'
      · rcases List.mem_cons.mp hb with rfl | hb'
        · exact Or.inl rfl
        · exact Or.inr (Or.inl (hx b hb'))
      · rcases List.mem_cons.mp hb with rfl | hb'
        · exact Or.inr (Or.inr (hx a ha'))
        · exact ih ha' hb'

/-! ### Queries -/

variable [LinearOrder T] (lo hi : α → T)

/-- The sequence `l` vouches for the query `[c, r]` at the values `ok`: an
element that began before `r` is acceptable and no later one was over before
`c`. -/
def Vouches (l : List α) (c r : T) (ok : α → Prop) : Prop :=
  ∃ pre u post, l = pre ++ u :: post ∧ lo u < r ∧ ok u ∧ ∀ w ∈ post, ¬ hi w < c

variable {lo hi}

/-- A sequence in the order of its times splits at a bound. -/
lemma filter_lt_append_filter_le {l : List α} (hl : l.Pairwise fun a b => hi a < hi b) (m : T) :
    l.filter (fun a => decide (hi a < m)) ++ l.filter (fun a => decide (m ≤ hi a)) = l := by
  induction hl with
  | nil => rfl
  | @cons a l ha _ ih =>
      by_cases hm : hi a < m
      · have hnot : ¬ m ≤ hi a := not_le.mpr hm
        rw [List.filter_cons_of_pos (by simpa using hm),
          List.filter_cons_of_neg (by simpa using hnot), List.cons_append, ih]
      · have hle : m ≤ hi a := not_lt.mp hm
        have hnone : l.filter (fun a => decide (hi a < m)) = [] := by
          rw [List.filter_eq_nil_iff]
          intro b hb
          simpa using hle.trans (ha b hb).le
        have hall : l.filter (fun a => decide (m ≤ hi a)) = l := by
          rw [List.filter_eq_self]
          intro b hb
          simpa using hle.trans (ha b hb).le
        rw [List.filter_cons_of_neg (by simpa using hle),
          List.filter_cons_of_pos (by simpa using hle), hnone, hall, List.nil_append]

/-- A later bound cuts off more. -/
lemma filter_le_filter_le (l : List α) {m m' : T} (hm : m ≤ m') :
    (l.filter fun a => decide (m ≤ hi a)).filter (fun a => decide (m' ≤ hi a))
      = l.filter fun a => decide (m' ≤ hi a) := by
  rw [List.filter_filter]
  refine List.filter_congr fun a _ => ?_
  rw [← Bool.decide_and, decide_eq_decide]
  exact and_iff_left_of_imp hm.trans

/-- What lies below a later bound lay below the earlier one or is cut off now. -/
lemma filter_lt_append_filter_lt {l : List α} (hl : l.Pairwise fun a b => hi a < hi b) {m m' : T}
    (hm : m ≤ m') :
    l.filter (fun a => decide (hi a < m))
        ++ (l.filter fun a => decide (m ≤ hi a)).filter (fun a => decide (hi a < m'))
      = l.filter fun a => decide (hi a < m') := by
  have hearly : (l.filter fun a => decide (hi a < m)).filter (fun a => decide (hi a < m'))
      = l.filter fun a => decide (hi a < m) := by
    rw [List.filter_eq_self]
    intro a ha
    exact decide_eq_true ((of_decide_eq_true (List.mem_filter.mp ha).2).trans_le hm)
  calc l.filter (fun a => decide (hi a < m))
        ++ (l.filter fun a => decide (m ≤ hi a)).filter (fun a => decide (hi a < m'))
      = (l.filter (fun a => decide (hi a < m)) ++ l.filter (fun a => decide (m ≤ hi a))).filter
          (fun a => decide (hi a < m')) := by rw [List.filter_append, hearly]
    _ = l.filter fun a => decide (hi a < m') := by rw [filter_lt_append_filter_le hl]

lemma search_reverse_iff_vouches (l : List α) (c r : T) (ok : α → Bool) :
    search (fun u => decide (lo u < r) && ok u) (fun u => decide (hi u < c)) l.reverse = true
      ↔ Vouches lo hi l c r (fun u => ok u = true) := by
  rw [search_reverse_iff]
  simp [Vouches, and_assoc]

lemma Vouches.mono {l : List α} {c r : T} {ok ok' : α → Prop} (h : ∀ u ∈ l, ok u → ok' u)
    (hv : Vouches lo hi l c r ok) : Vouches lo hi l c r ok' := by
  obtain ⟨pre, u, post, rfl, hlo, hok, hpost⟩ := hv
  exact ⟨pre, u, post, rfl, hlo, h u (by simp) hok, hpost⟩

/-- Elements that begin at or after the end of the query neither vouch for it
nor cut it off. -/
lemma vouches_append {l later : List α} {c r : T} {ok : α → Prop}
    (hlater : ∀ w ∈ later, r ≤ lo w ∧ c ≤ hi w) :
    Vouches lo hi (l ++ later) c r ok ↔ Vouches lo hi l c r ok := by
  constructor
  · rintro ⟨pre, u, post, heq, hlo, hok, hpost⟩
    rcases List.append_eq_append_iff.mp heq with ⟨mid, rfl, hmid⟩ | ⟨mid, rfl, hmid⟩
    · -- the element found would be one of the later ones
      have hu : u ∈ later := by rw [hmid]; simp
      exact absurd hlo (not_lt.mpr (hlater u hu).1)
    · cases mid with
      | nil =>
          have hu : u ∈ later := by rw [List.nil_append] at hmid; rw [← hmid]; simp
          exact absurd hlo (not_lt.mpr (hlater u hu).1)
      | cons x mid =>
          obtain ⟨rfl, rfl⟩ := List.cons.inj hmid
          exact ⟨pre, u, mid, rfl, hlo, hok, fun w hw => hpost w (by simp [hw])⟩
  · rintro ⟨pre, u, post, rfl, hlo, hok, hpost⟩
    refine ⟨pre, u, post ++ later, by simp, hlo, hok, ?_⟩
    intro w hw
    rcases List.mem_append.mp hw with hw | hw
    · exact hpost w hw
    · exact not_lt.mpr (hlater w hw).2

/-- The elements before one that was over before the query do not matter. -/
lemma vouches_drop {dead kept : List α} {c r : T} {ok : α → Prop}
    (hs : ∃ s ∈ kept, hi s < c) :
    Vouches lo hi (dead ++ kept) c r ok ↔ Vouches lo hi kept c r ok := by
  constructor
  · rintro ⟨pre, u, post, heq, hlo, hok, hpost⟩
    rcases List.append_eq_append_iff.mp heq with ⟨mid, rfl, hmid⟩ | ⟨mid, rfl, hmid⟩
    · exact ⟨mid, u, post, hmid, hlo, hok, hpost⟩
    · cases mid with
      | nil => exact ⟨[], u, post, by simpa using hmid.symm, hlo, hok, hpost⟩
      | cons x mid =>
          -- the element found is dead, so the settled one cuts it off
          obtain ⟨rfl, rfl⟩ := List.cons.inj hmid
          obtain ⟨s, hs, hlt⟩ := hs
          exact absurd hlt (hpost s (by simp [hs]))
  · rintro ⟨pre, u, post, rfl, hlo, hok, hpost⟩
    exact ⟨dead ++ pre, u, post, by simp, hlo, hok, hpost⟩

/-! ### Trimmed sequences -/

/-- `kept` is `full` without some of its head; if anything was cut, a settled
element is among those kept. -/
def Trimmed (settled : α → Prop) (full kept : List α) : Prop :=
  ∃ dead, full = dead ++ kept ∧ (dead = [] ∨ ∃ s ∈ kept, settled s)

namespace Trimmed

variable {settled settled' : α → Prop} {full mid kept : List α}

lemma refl (settled : α → Prop) (l : List α) : Trimmed settled l l :=
  ⟨[], rfl, Or.inl rfl⟩

lemma mono (h : ∀ u ∈ full, settled u → settled' u) (ht : Trimmed settled full kept) :
    Trimmed settled' full kept := by
  obtain ⟨dead, rfl, hd | ⟨s, hs, hset⟩⟩ := ht
  · exact ⟨dead, rfl, Or.inl hd⟩
  · exact ⟨dead, rfl, Or.inr ⟨s, hs, h s (by simp [hs]) hset⟩⟩

lemma snoc (ht : Trimmed settled full kept) (w : α) :
    Trimmed settled (full ++ [w]) (kept ++ [w]) := by
  obtain ⟨dead, rfl, hd | ⟨s, hs, hset⟩⟩ := ht
  · exact ⟨dead, by simp, Or.inl hd⟩
  · exact ⟨dead, by simp, Or.inr ⟨s, by simp [hs], hset⟩⟩

lemma trans (ht : Trimmed settled full mid) (ht' : Trimmed settled mid kept) :
    Trimmed settled full kept := by
  obtain ⟨dead, rfl, hd⟩ := ht
  obtain ⟨dead', rfl, hd'⟩ := ht'
  refine ⟨dead ++ dead', by simp, ?_⟩
  rcases hd' with rfl | hd'
  · simpa using hd
  · exact Or.inr hd'

lemma mem (ht : Trimmed settled full kept) {u : α} (hu : u ∈ kept) : u ∈ full := by
  obtain ⟨dead, rfl, -⟩ := ht
  simp [hu]

/-- A query that starts after everything settled does not see the cut. -/
lemma vouches_iff (ht : Trimmed settled full kept) {c r : T} {ok : α → Prop}
    (hc : ∀ s, settled s → hi s < c) :
    Vouches lo hi full c r ok ↔ Vouches lo hi kept c r ok := by
  obtain ⟨dead, rfl, rfl | ⟨s, hs, hset⟩⟩ := ht
  · rfl
  · exact vouches_drop ⟨s, hs, hc s hset⟩

end Trimmed

/-! ### Queries that overlap nothing but their own element -/

/-- `u` is the last element over before the query, `own` overlaps it, the rest
begins after it: the query sees `u` and its own elements. -/
lemma vouches_iff_of_splits {early own late : List α} {u : α} {c r : T} {ok : α → Prop}
    (hu : hi u < c) (hur : lo u < r)
    (hown : ∀ w ∈ own, lo w < r ∧ ¬ hi w < c) (hlate : ∀ w ∈ late, r ≤ lo w ∧ c ≤ hi w) :
    Vouches lo hi (early ++ u :: own ++ late) c r ok ↔ ok u ∨ ∃ w ∈ own, ok w := by
  rw [vouches_append hlate, vouches_drop ⟨u, by simp, hu⟩]
  constructor
  · rintro ⟨pre, v, post, heq, -, hok, -⟩
    cases pre with
    | nil =>
        obtain ⟨rfl, -⟩ := List.cons.inj heq
        exact Or.inl hok
    | cons x pre =>
        obtain ⟨rfl, rfl⟩ := List.cons.inj heq
        exact Or.inr ⟨v, by simp, hok⟩
  · rintro (hok | ⟨w, hw, hok⟩)
    · exact ⟨[], u, own, rfl, hur, hok, fun w hw => (hown w hw).2⟩
    · obtain ⟨pre, post, rfl⟩ := List.append_of_mem hw
      exact ⟨u :: pre, w, post, rfl, (hown w hw).1, hok,
        fun x hx => (hown x (by simp [hx])).2⟩

end Intervals
