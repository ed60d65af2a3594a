import Mathlib.Tactic

/-!
# Readers of strings

A reader takes a value off the front of a string and leaves an end of it, or fails with an error.
`Reads` says that it turns a string into a value whatever follows the string, and that it runs out
of input on every proper beginning of it. Readers put together from such parts have the same
property, so that values which are written one after another can be told apart: `readAll_take` says
what is read when such a sequence is cut off at any place.
-/

namespace StringReader

universe u

variable {ε β α γ σ : Type u}

structure Reader (ε β α : Type u) where
  run : List β → Except ε (α × List β)
  suffix : ∀ {bs a rest}, run bs = .ok (a, rest) → rest <:+ bs

namespace Reader

protected def pure (a : α) : Reader ε β α where
  run bs := .ok (a, bs)
  suffix h := by
    obtain ⟨-, rfl⟩ := Prod.mk.inj (Except.ok.inj h)
    exact List.suffix_rfl

protected def bind (r : Reader ε β α) (f : α → Reader ε β γ) : Reader ε β γ where
  run bs :=
    match r.run bs with
    | .error e => .error e
    | .ok (a, mid) => (f a).run mid
  suffix {bs c rest} h := by
    cases hr : r.run bs with
    | error e => simp only [hr, reduceCtorEq] at h
    | ok p =>
        simp only [hr] at h
        exact ((f p.1).suffix h).trans (r.suffix hr)

instance : Monad (Reader ε β) where
  pure := Reader.pure
  bind := Reader.bind

end Reader

def fail (e : ε) : Reader ε β α where
  run _ := .error e
  suffix h := by cases h

def next (eof : ε) : Reader ε β β where
  run
    | [] => .error eof
    | b :: bs => .ok (b, bs)
  suffix {bs a rest} h := by
    cases bs with
    | nil => cases h
    | cons b bs =>
        obtain ⟨-, rfl⟩ := Prod.mk.inj (Except.ok.inj h)
        exact List.suffix_cons b bs

def take (eof : ε) (n : ℕ) : Reader ε β (List β) where
  run bs := if bs.length < n then .error eof else .ok (bs.take n, bs.drop n)
  suffix {bs a rest} h := by
    split_ifs at h
    obtain ⟨-, rfl⟩ := Prod.mk.inj (Except.ok.inj h)
    exact List.drop_suffix n bs

/-- Goes on with another reader, depending on what comes next. -/
def peek (p : Option β → Bool) (r r' : Reader ε β α) : Reader ε β α where
  run bs := if p bs.head? then r.run bs else r'.run bs
  suffix h := by
    split_ifs at h
    · exact r.suffix h
    · exact r'.suffix h

theorem run_take (eof : ε) (n : ℕ) (bs : List β) : (take eof n).run bs =
    if bs.length < n then .error eof else .ok (bs.take n, bs.drop n) := rfl

theorem run_bind_of_ok {r : Reader ε β α} {f : α → Reader ε β γ} {bs mid : List β} {a : α}
    (h : r.run bs = .ok (a, mid)) : (r >>= f).run bs = (f a).run mid := by
  change (Reader.bind r f).run bs = _
  simp only [Reader.bind, h]

theorem run_bind_of_error {r : Reader ε β α} {f : α → Reader ε β γ} {bs : List β} {e : ε}
    (h : r.run bs = .error e) : (r >>= f).run bs = .error e := by
  change (Reader.bind r f).run bs = _
  simp only [Reader.bind, h]

theorem run_bind_eq_ok {r : Reader ε β α} {f : α → Reader ε β γ} {bs rest : List β} {c : γ} :
    (r >>= f).run bs = .ok (c, rest) ↔
      ∃ a mid, r.run bs = .ok (a, mid) ∧ (f a).run mid = .ok (c, rest) := by
  constructor
  · intro h
    cases hr : r.run bs with
    | error e => cases (run_bind_of_error hr).symm.trans h
    | ok p => exact ⟨p.1, p.2, rfl, (run_bind_of_ok hr).symm.trans h⟩
  · rintro ⟨a, mid, hr, hf⟩
    rw [run_bind_of_ok hr, hf]

theorem map_eq_bind (f : α → γ) (r : Reader ε β α) : f <$> r = r >>= fun a => pure (f a) := rfl

theorem run_map_eq_ok {r : Reader ε β α} {f : α → γ} {bs rest : List β} {c : γ} :
    (f <$> r).run bs = .ok (c, rest) ↔ ∃ a, r.run bs = .ok (a, rest) ∧ f a = c := by
  rw [map_eq_bind, run_bind_eq_ok]
  constructor
  · rintro ⟨a, mid, ha, hc⟩
    obtain ⟨rfl, rfl⟩ := Prod.mk.inj (Except.ok.inj hc)
    exact ⟨a, ha, rfl⟩
  · rintro ⟨a, ha, rfl⟩
    exact ⟨a, rest, ha, rfl⟩

theorem run_peek_eq_ok {p : Option β → Bool} {r r' : Reader ε β α} {bs rest : List β} {a : α}
    (h : (peek p r r').run bs = .ok (a, rest)) :
    r.run bs = .ok (a, rest) ∨ r'.run bs = .ok (a, rest) := by
  change (if p bs.head? then r.run bs else r'.run bs) = _ at h
  split_ifs at h
  · exact Or.inl h
  · exact Or.inr h

/-- Every success takes something away. -/
def Consumes (r : Reader ε β α) : Prop :=
  ∀ bs a rest, r.run bs = .ok (a, rest) → rest.length < bs.length

theorem consumes_next (eof : ε) : Consumes (next eof : Reader ε β β) := by
  intro bs a rest h
  cases bs with
  | nil => cases h
  | cons b bs =>
      obtain ⟨-, rfl⟩ := Prod.mk.inj (Except.ok.inj h)
      exact Nat.lt_succ_self _

theorem Consumes.bind {r : Reader ε β α} (hr : Consumes r) (f : α → Reader ε β γ) :
    Consumes (r >>= f) := by
  intro bs c rest h
  obtain ⟨a, mid, ha, hc⟩ := run_bind_eq_ok.1 h
  exact ((f a).suffix hc).length_le.trans_lt (hr _ _ _ ha)

/-- What is returned stands in the string that was given. -/
def Slices (r : Reader ε β (List β)) : Prop :=
  ∀ bs s rest, r.run bs = .ok (s, rest) → s <:+: bs

theorem slices_fail (e : ε) : Slices (fail e : Reader ε β (List β)) := by
  intro bs s rest h
  cases h

theorem slices_take (eof : ε) (n : ℕ) : Slices (take eof n : Reader ε β (List β)) := by
  intro bs s rest h
  rw [run_take] at h
  split_ifs at h
  obtain ⟨rfl, -⟩ := Prod.mk.inj (Except.ok.inj h)
  exact (List.take_prefix n bs).isInfix

theorem Slices.bind {r : Reader ε β α} {f : α → Reader ε β (List β)} (hf : ∀ a, Slices (f a)) :
    Slices (r >>= f) := by
  intro bs s rest h
  obtain ⟨a, mid, ha, hs⟩ := run_bind_eq_ok.1 h
  exact (hf a _ _ _ hs).trans (r.suffix ha).isInfix

theorem Slices.ite {r r' : Reader ε β (List β)} {p : Prop} [Decidable p] (hr : Slices r)
    (hr' : Slices r') : Slices (if p then r else r') := by
  split_ifs
  · exact hr
  · exact hr'

/-- The reader turns the string into the value and leaves what follows, and it does not get by with
less: on a proper beginning of the string it fails for want of more. -/
structure Reads (eof : ε) (r : Reader ε β α) (bs : List β) (a : α) : Prop where
  whole : ∀ rest, r.run (bs ++ rest) = .ok (a, rest)
  cut : ∀ pre, pre <+: bs → pre ≠ bs → r.run pre = .error eof

variable {eof : ε}

theorem isPrefix_append_cases {pre bs cs : List β} (h : pre <+: bs ++ cs) (hne : pre ≠ bs ++ cs) :
    pre <+: bs ∧ pre ≠ bs ∨ ∃ pre', pre = bs ++ pre' ∧ pre' <+: cs ∧ pre' ≠ cs := by
  rcases List.prefix_or_prefix_of_prefix h (List.prefix_append bs cs) with hshort | ⟨pre', rfl⟩
  · by_cases heq : pre = bs
    · refine Or.inr ⟨[], by rw [heq, List.append_nil], List.nil_prefix, ?_⟩
      rintro rfl
      exact hne (heq.trans (List.append_nil bs).symm)
    · exact Or.inl ⟨hshort, heq⟩
  · refine Or.inr ⟨pre', rfl, (List.prefix_append_right_inj bs).1 h, ?_⟩
    rintro rfl
    exact hne rfl

theorem reads_pure (a : α) : Reads eof (pure a : Reader ε β α) [] a where
  whole _ := rfl
  cut _ hpre hne := absurd (List.prefix_nil.1 hpre) hne

theorem reads_next (b : β) : Reads eof (next eof) [b] b where
  whole _ := rfl
  cut pre hpre hne := by
    rcases List.prefix_concat_iff.1 (show pre <+: [] ++ [b] from hpre) with heq | hnil
    · exact absurd heq hne
    · rw [List.prefix_nil.1 hnil]
      rfl

theorem reads_take (bs : List β) : Reads eof (take eof bs.length) bs bs where
  whole rest := by
    rw [run_take, if_neg (by simp), List.take_left, List.drop_left]
  cut pre hpre hne := by
    rw [run_take]
    exact if_pos (hpre.length_le.lt_of_ne (fun h => hne (hpre.eq_of_length h)))

theorem Reads.bind {r : Reader ε β α} {f : α → Reader ε β γ} {bs cs : List β} {a : α} {c : γ}
    (hr : Reads eof r bs a) (hf : Reads eof (f a) cs c) : Reads eof (r >>= f) (bs ++ cs) c where
  whole rest := by
    rw [List.append_assoc, run_bind_of_ok (hr.whole _), hf.whole]
  cut pre hpre hne := by
    rcases isPrefix_append_cases hpre hne with ⟨hfirst, hne⟩ | ⟨pre', rfl, hsecond, hne⟩
    · exact run_bind_of_error (hr.cut pre hfirst hne)
    · rw [run_bind_of_ok (hr.whole pre'), hf.cut pre' hsecond hne]

theorem Reads.map {r : Reader ε β α} {bs : List β} {a : α} (h : Reads eof r bs a) (f : α → γ) :
    Reads eof (f <$> r) bs (f a) := by
  rw [map_eq_bind, ← List.append_nil bs]
  exact h.bind (reads_pure (f a))

theorem Reads.run {r : Reader ε β α} {bs : List β} {a : α} (h : Reads eof r bs a) :
    r.run bs = .ok (a, []) := by
  have hnil := h.whole []
  rwa [List.append_nil] at hnil

theorem reads_of_inits {r : Reader ε β α} {bs : List β} {a : α}
    (hwhole : ∀ rest, r.run (bs ++ rest) = .ok (a, rest))
    (hcut : ∀ pre ∈ bs.inits, pre ≠ bs → r.run pre = .error eof) : Reads eof r bs a :=
  ⟨hwhole, fun pre hpre => hcut pre ((List.mem_inits pre bs).2 hpre)⟩

theorem Reads.peek {p : Option β → Bool} {r r' : Reader ε β α} {bs : List β} {a : α}
    (h : Reads eof r' bs a) (hne : bs ≠ []) (hhead : p bs.head? = false) (hnone : p none = false) :
    Reads eof (peek p r r') bs a where
  whole rest := by
    change (if p (bs ++ rest).head? then _ else r'.run (bs ++ rest)) = _
    rw [List.head?_append_of_ne_nil bs hne, hhead]
    exact h.whole rest
  cut pre hpre hpre' := by
    change (if p pre.head? then _ else r'.run pre) = _
    have hp : p pre.head? = false := by
      cases pre with
      | nil => exact hnone
      | cons b pre =>
          obtain ⟨tail, rfl⟩ := hpre
          exact hhead
    rw [hp]
    exact h.cut pre hpre hpre'

def replicate (r : Reader ε β α) : ℕ → Reader ε β (List α)
  | 0 => pure []
  | n + 1 => do
      let a ← r
      let as ← replicate r n
      pure (a :: as)

theorem reads_replicate {r : Reader ε β α} {enc : α → List β} {as : List α}
    (h : ∀ a ∈ as, Reads eof r (enc a) a) :
    Reads eof (replicate r as.length) (as.flatMap enc) as := by
  induction as with
  | nil => exact reads_pure []
  | cons a as ih =>
      have htail := ih (fun b hb => h b (List.mem_cons_of_mem a hb))
      have hpure := htail.bind (f := fun as => pure (a :: as)) (reads_pure (a :: as))
      rw [List.append_nil] at hpure
      exact (h a List.mem_cons_self).bind hpure

/-- Takes `n` steps that each read on and change a state. -/
def loop (step : σ → Reader ε β σ) : ℕ → σ → Reader ε β σ
  | 0, z => pure z
  | n + 1, z => do
      let z ← step z
      loop step n z

/-- When each piece of a string is read by one step, the loop reads all of them. -/
theorem reads_loop {step : σ → Reader ε β σ} {pieces : List (List β × (σ → σ))}
    (h : ∀ p ∈ pieces, ∀ z, Reads eof (step z) p.1 (p.2 z)) (z : σ) :
    Reads eof (loop step pieces.length z) (pieces.flatMap Prod.fst)
      (pieces.foldl (fun z p => p.2 z) z) := by
  induction pieces generalizing z with
  | nil => exact reads_pure z
  | cons p pieces ih =>
      have htail := ih (fun q hq => h q (List.mem_cons_of_mem p hq)) (p.2 z)
      exact (h p List.mem_cons_self z).bind htail

/-- An invariant of the state that may speak of the string left to read. -/
theorem loop_invariant {step : σ → Reader ε β σ} {P : σ → List β → Prop}
    (h : ∀ z bs z' rest, P z bs → (step z).run bs = .ok (z', rest) → P z' rest) {n : ℕ}
    {z z' : σ} {bs rest : List β} (hz : P z bs) (hrun : (loop step n z).run bs = .ok (z', rest)) :
    P z' rest := by
  induction n generalizing z bs with
  | zero =>
      obtain ⟨rfl, rfl⟩ := Prod.mk.inj (Except.ok.inj hrun)
      exact hz
  | succ n ih =>
      obtain ⟨y, mid, hy, hrest⟩ := run_bind_eq_ok.1 hrun
      exact ih (h z bs y mid hz hy) hrest

section Sequences

variable {r : Reader ε β α} (hr : Consumes r)

/-- All values at the front of the string, and the error that ends them. -/
def readAll (r : Reader ε β α) (hr : Consumes r) (bs : List β) : List α × ε :=
  match _ : r.run bs with
  | .error e => ([], e)
  | .ok (a, rest) => (a :: (readAll r hr rest).1, (readAll r hr rest).2)
  termination_by bs.length
  decreasing_by all_goals exact hr _ _ _ (by assumption)

theorem readAll_of_ok {bs rest : List β} {a : α} (h : r.run bs = .ok (a, rest)) :
    readAll r hr bs = (a :: (readAll r hr rest).1, (readAll r hr rest).2) := by
  rw [readAll]
  split
  · rename_i heq
    cases h.symm.trans heq
  · rename_i heq
    obtain ⟨rfl, rfl⟩ := Prod.mk.inj (Except.ok.inj (h.symm.trans heq))
    rfl

theorem readAll_of_error {bs : List β} {e : ε} (h : r.run bs = .error e) :
    readAll r hr bs = ([], e) := by
  rw [readAll.eq_def]
  split
  · rename_i heq
    rw [Except.error.inj (h.symm.trans heq)]
  · rename_i heq
    cases h.symm.trans heq

end Sequences

/-- The longest beginning of the list whose encodings fit into `n` cells. -/
def whole (enc : α → List β) : ℕ → List α → List α
  | _, [] => []
  | n, a :: as => if (enc a).length ≤ n then a :: whole enc (n - (enc a).length) as else []

section Whole

variable (enc : α → List β)

theorem whole_isPrefix (n : ℕ) (as : List α) : whole enc n as <+: as := by
  induction as generalizing n with
  | nil => exact List.prefix_rfl
  | cons a as ih =>
      rw [whole]
      split_ifs
      · exact (List.prefix_cons_inj a).2 (ih _)
      · exact List.nil_prefix

theorem length_flatMap_whole_le (n : ℕ) (as : List α) :
    ((whole enc n as).flatMap enc).length ≤ n := by
  induction as generalizing n with
  | nil => exact Nat.zero_le n
  | cons a as ih =>
      rw [whole]
      split_ifs with hfit
      · have htail := ih (n - (enc a).length)
        rw [List.flatMap_cons, List.length_append]
        omega
      · exact Nat.zero_le n

theorem isPrefix_whole {n : ℕ} {as pre : List α} (hpre : pre <+: as)
    (hfit : (pre.flatMap enc).length ≤ n) : pre <+: whole enc n as := by
  induction pre generalizing n as with
  | nil => exact List.nil_prefix
  | cons a pre ih =>
      obtain ⟨tail, rfl⟩ := hpre
      rw [List.flatMap_cons, List.length_append] at hfit
      rw [List.cons_append, whole, if_pos (by omega)]
      exact (List.prefix_cons_inj a).2 (ih (List.prefix_append pre tail) (by omega))

theorem whole_of_le {n : ℕ} {as : List α} (h : (as.flatMap enc).length ≤ n) :
    whole enc n as = as :=
  (whole_isPrefix enc n as).eq_of_length_le (isPrefix_whole enc List.prefix_rfl h).length_le

end Whole

/-- What is read of a sequence that is cut off after `n` cells: the values that are there as a
whole, and then there is not enough. -/
theorem readAll_take {r : Reader ε β α} (hr : Consumes r) {enc : α → List β} {as : List α}
    (henc : ∀ a ∈ as, Reads eof r (enc a) a) (hnil : r.run [] = .error eof) (n : ℕ) :
    readAll r hr ((as.flatMap enc).take n) = (whole enc n as, eof) := by
  induction as generalizing n with
  | nil =>
      rw [List.flatMap_nil, List.take_nil, whole]
      exact readAll_of_error hr hnil
  | cons a as ih =>
      have ha := henc a List.mem_cons_self
      have htail := ih (fun b hb => henc b (List.mem_cons_of_mem a hb))
      rw [List.flatMap_cons, whole]
      split_ifs with hfit
      · rw [List.take_append, List.take_of_length_le hfit, readAll_of_ok hr (ha.whole _), htail]
      · apply readAll_of_error hr
        rw [List.take_append_of_le_length (by omega)]
        apply ha.cut _ (List.take_prefix n _)
        intro heq
        have hlen := congrArg List.length heq
        rw [List.length_take] at hlen
        omega

end StringReader
