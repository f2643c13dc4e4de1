import Mathlib.Data.List.Infix
import Mathlib.Tactic.Lemma

/-!
A server that replies to requests one after another.

To a request in a state it replies and goes on or ends, or it ends without a reply.
It is `none` once it has ended, and gives no more replies.

* `replies`, `after`: the replies to a sequence of requests, and the server after it.
* `replies_append`, `replies_isPrefix`: more requests only add replies.
* `length_replies_of_alive`: a server that goes on has replied to each request.
* `exists_ending`: a server that has ended did so at a request.
* `exists_of_getElem?`: each reply is the one to the request in its place.
-/

namespace Replies

variable {S R A : Type*}

/-- The replies to some requests. -/
def replies (answer : S → R → Option (A × Option S)) : Option S → List R → List A
  | none, _ => []
  | some _, [] => []
  | some s, r :: rs =>
      match answer s r with
      | none => []
      | some (a, s') => a :: replies answer s' rs

/-- The server after some requests. -/
def after (answer : S → R → Option (A × Option S)) : Option S → List R → Option S
  | none, _ => none
  | some s, [] => some s
  | some s, r :: rs =>
      match answer s r with
      | none => none
      | some (_, s') => after answer s' rs

variable {answer : S → R → Option (A × Option S)} {s : S} {server s' : Option S} {r : R} {a : A}
  {rs rs' : List R}

@[simp] lemma replies_none (rs : List R) : replies answer none rs = [] := by
  cases rs <;> rfl

@[simp] lemma after_none (rs : List R) : after answer none rs = none := by
  cases rs <;> rfl

@[simp] lemma replies_nil (server : Option S) : replies answer server [] = [] := by
  cases server <;> rfl

@[simp] lemma after_nil (server : Option S) : after answer server [] = server := by
  cases server <;> rfl

lemma replies_cons (h : answer s r = some (a, s')) :
    replies answer (some s) (r :: rs) = a :: replies answer s' rs := by
  rw [replies, h]

lemma after_cons (h : answer s r = some (a, s')) :
    after answer (some s) (r :: rs) = after answer s' rs := by
  rw [after, h]

lemma replies_cons_of_none (h : answer s r = none) :
    replies answer (some s) (r :: rs) = [] := by
  rw [replies, h]

lemma after_cons_of_none (h : answer s r = none) : after answer (some s) (r :: rs) = none := by
  rw [after, h]

lemma after_append (server : Option S) (rs rs' : List R) :
    after answer server (rs ++ rs') = after answer (after answer server rs) rs' := by
  induction rs generalizing server with
  | nil => rw [List.nil_append, after_nil]
  | cons r rs ih =>
      cases server with
      | none => simp
      | some s =>
          cases h : answer s r with
          | none => rw [List.cons_append, after_cons_of_none h, after_cons_of_none h, after_none]
          | some reply =>
              obtain ⟨a, s'⟩ := reply
              rw [List.cons_append, after_cons h, after_cons h, ih]

/-- The replies to more requests are those of the server after the first of them. -/
lemma replies_append (server : Option S) (rs rs' : List R) :
    replies answer server (rs ++ rs') =
      replies answer server rs ++ replies answer (after answer server rs) rs' := by
  induction rs generalizing server with
  | nil => rw [List.nil_append, replies_nil, after_nil, List.nil_append]
  | cons r rs ih =>
      cases server with
      | none => simp
      | some s =>
          cases h : answer s r with
          | none =>
              rw [List.cons_append, replies_cons_of_none h, replies_cons_of_none h,
                after_cons_of_none h, replies_none, List.nil_append]
          | some reply =>
              obtain ⟨a, s'⟩ := reply
              rw [List.cons_append, replies_cons h, replies_cons h, after_cons h, ih,
                List.cons_append]

lemma replies_isPrefix (server : Option S) (h : rs <+: rs') :
    replies answer server rs <+: replies answer server rs' := by
  obtain ⟨more, rfl⟩ := h
  rw [replies_append]
  exact List.prefix_append _ _

variable (answer) in
lemma length_replies_le (server : Option S) (rs : List R) :
    (replies answer server rs).length ≤ rs.length := by
  induction rs generalizing server with
  | nil => simp
  | cons r rs ih =>
      cases server with
      | none => simp
      | some s =>
          cases h : answer s r with
          | none => simp [replies_cons_of_none h]
          | some reply =>
              rw [replies_cons h]
              exact Nat.succ_le_succ (ih reply.2)

/-- A server that has not ended has replied to each request. -/
lemma length_replies_of_alive (h : after answer server rs ≠ none) :
    (replies answer server rs).length = rs.length := by
  induction rs generalizing server with
  | nil => simp
  | cons r rs ih =>
      cases server with
      | none => exact absurd (after_none _) h
      | some s =>
          cases hanswer : answer s r with
          | none => exact absurd (after_cons_of_none hanswer) h
          | some reply =>
              rw [after_cons hanswer] at h
              rw [replies_cons hanswer]
              exact congrArg Nat.succ (ih h)

/-- Where each request has got a reply, each of the first ones has. -/
lemma length_replies_of_isPrefix (h : rs <+: rs')
    (hall : (replies answer server rs').length = rs'.length) :
    (replies answer server rs).length = rs.length := by
  obtain ⟨more, rfl⟩ := h
  have hle := length_replies_le answer server rs
  have hmore := length_replies_le answer (after answer server rs) more
  rw [replies_append, List.length_append, List.length_append] at hall
  omega

/-- The request that a server has ended at, with a reply or without. -/
lemma exists_ending (h : after answer (some s) rs = none) :
    ∃ pre r rest t, rs = pre ++ r :: rest ∧ after answer (some s) pre = some t
      ∧ (answer t r = none ∨ ∃ a, answer t r = some (a, none)) := by
  induction rs generalizing s with
  | nil => cases h
  | cons r rs ih =>
      cases hanswer : answer s r with
      | none => exact ⟨[], r, rs, s, rfl, rfl, .inl hanswer⟩
      | some reply =>
          obtain ⟨a, s' | s'⟩ := reply
          · exact ⟨[], r, rs, s, rfl, rfl, .inr ⟨a, hanswer⟩⟩
          · rw [after_cons hanswer] at h
            obtain ⟨pre, r', rest, t, rfl, hpre, hends⟩ := ih h
            exact ⟨r :: pre, r', rest, t, rfl, by rw [after_cons hanswer, hpre], hends⟩

/-- Each reply is the one to the request in its place, from the state that the
requests before it leave. -/
lemma exists_of_getElem? {n : ℕ} (h : (replies answer server rs)[n]? = some a) :
    ∃ r s s', rs[n]? = some r ∧ after answer server (rs.take n) = some s
      ∧ answer s r = some (a, s') := by
  induction rs generalizing server n with
  | nil => simp at h
  | cons r rs ih =>
      cases server with
      | none => simp at h
      | some s =>
          cases hanswer : answer s r with
          | none => simp [replies_cons_of_none hanswer] at h
          | some reply =>
              obtain ⟨b, s'⟩ := reply
              rw [replies_cons hanswer] at h
              cases n with
              | zero =>
                  cases h
                  exact ⟨r, s, s', rfl, rfl, hanswer⟩
              | succ n =>
                  obtain ⟨r', t, t', hr, hafter, ht⟩ := ih h
                  exact ⟨r', t, t', hr, by rw [List.take_succ_cons, after_cons hanswer, hafter], ht⟩

end Replies
