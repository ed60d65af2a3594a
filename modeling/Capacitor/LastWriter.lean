import Mathlib.Tactic

/-!
# Last-writer-wins maps

A map from keys to stamped entries that a write changes only when its stamp is strictly greater
than the stamp held. `Latest ws m` says what such a map holds after the writes `ws`: nothing that
was not written, and at every written key an entry that no write exceeds. When equal stamps on one
key mean equal entries, this determines the map, so neither the order nor the multiplicity of the
writes matters.
-/

namespace LastWriter

variable {K T E : Type*} [LinearOrder T] (stamp : E → T)

structure Latest (ws : List (K × E)) (m : K → Option E) : Prop where
  written : ∀ k e, m k = some e → (k, e) ∈ ws
  dominated : ∀ w ∈ ws, ∃ e, m w.1 = some e ∧ stamp w.2 ≤ stamp e

/-- Two writes to one key with the same stamp carry the same entry. -/
def Tieless (ws : List (K × E)) : Prop :=
  ∀ v ∈ ws, ∀ w ∈ ws, v.1 = w.1 → stamp v.2 = stamp w.2 → v.2 = w.2

theorem latest_nil : Latest stamp [] (fun _ : K => none) := by
  constructor
  · intro k e he
    cases he
  · intro w hw
    cases hw

/-- The entry held is the written one whose stamp is greatest. -/
theorem Latest.eq_greatest {ws : List (K × E)} {m : K → Option E} (h : Latest stamp ws m)
    (hties : Tieless stamp ws) {k : K} {e : E} (he : (k, e) ∈ ws)
    (hmax : ∀ w ∈ ws, w.1 = k → stamp w.2 ≤ stamp e) : m k = some e := by
  obtain ⟨x, hx, hle⟩ := h.dominated (k, e) he
  have hxw := h.written k x hx
  have hstamp : stamp x = stamp e := le_antisymm (hmax (k, x) hxw rfl) hle
  exact hx.trans (congrArg some (hties (k, x) hxw (k, e) he rfl hstamp))

theorem Latest.eq_none {ws : List (K × E)} {m : K → Option E} (h : Latest stamp ws m) {k : K}
    (hk : ∀ w ∈ ws, w.1 ≠ k) : m k = none := by
  cases hm : m k with
  | none => rfl
  | some e => exact absurd rfl (hk (k, e) (h.written k e hm))

/-- Two histories with the same writes leave the same map. -/
theorem Latest.unique {ws vs : List (K × E)} {m n : K → Option E} (hm : Latest stamp ws m)
    (hn : Latest stamp vs n) (hties : Tieless stamp ws) (hmem : ∀ w, w ∈ ws ↔ w ∈ vs) : m = n := by
  funext k
  cases hk : m k with
  | none =>
      symm
      apply hn.eq_none
      rintro w hw rfl
      obtain ⟨x, hx, _⟩ := hm.dominated w ((hmem w).2 hw)
      rw [hk] at hx
      cases hx
  | some e =>
      have he := hm.written k e hk
      symm
      apply hn.eq_greatest stamp (fun v hv w hw => hties v ((hmem v).2 hv) w ((hmem w).2 hw))
        ((hmem _).1 he)
      rintro w hw rfl
      obtain ⟨x, hx, hle⟩ := hm.dominated w ((hmem w).2 hw)
      rw [hk] at hx
      obtain rfl := Option.some.inj hx
      exact hle

variable [DecidableEq K]

def write (m : K → Option E) (k : K) (e : E) : K → Option E :=
  if ∃ x ∈ m k, stamp e ≤ stamp x then m else Function.update m k (some e)

def writeAll (m : K → Option E) (ws : List (K × E)) : K → Option E :=
  ws.foldl (fun m w => write stamp m w.1 w.2) m

theorem write_of_dominated {m : K → Option E} {k : K} {e x : E} (hx : m k = some x)
    (hle : stamp e ≤ stamp x) : write stamp m k e = m :=
  if_pos ⟨x, hx, hle⟩

theorem write_apply_ne {m : K → Option E} {j k : K} {e : E} (hjk : j ≠ k) :
    write stamp m k e j = m j := by
  unfold write
  split_ifs
  · rfl
  · exact Function.update_of_ne hjk _ _

theorem write_apply_self (m : K → Option E) (k : K) (e : E) :
    (∃ x, m k = some x ∧ stamp e ≤ stamp x ∧ write stamp m k e k = some x) ∨
      write stamp m k e k = some e := by
  unfold write
  split_ifs with h
  · obtain ⟨x, hx, hle⟩ := h
    exact Or.inl ⟨x, hx, hle, hx⟩
  · exact Or.inr (Function.update_self _ _ _)

theorem eq_some_of_write {m : K → Option E} {j k : K} {e x : E}
    (h : write stamp m k e j = some x) : m j = some x ∨ j = k ∧ x = e := by
  unfold write at h
  split_ifs at h
  · exact Or.inl h
  · by_cases hjk : j = k
    · subst j
      rw [Function.update_self] at h
      exact Or.inr ⟨rfl, (Option.some.inj h).symm⟩
    · rw [Function.update_of_ne hjk] at h
      exact Or.inl h

theorem write_of_not_dominated {m : K → Option E} {k : K} {e : E}
    (h : ∀ x, m k = some x → stamp x < stamp e) : write stamp m k e k = some e := by
  rcases write_apply_self stamp m k e with ⟨x, hx, hle, _⟩ | he
  · exact absurd hle (not_le.2 (h x hx))
  · exact he

theorem le_write_self (m : K → Option E) (k : K) (e : E) :
    ∃ x, write stamp m k e k = some x ∧ stamp e ≤ stamp x := by
  rcases write_apply_self stamp m k e with ⟨x, _, hle, hx⟩ | he
  · exact ⟨x, hx, hle⟩
  · exact ⟨e, he, le_rfl⟩

theorem write_mono {m : K → Option E} {j : K} {x : E} (hx : m j = some x) (k : K) (e : E) :
    ∃ y, write stamp m k e j = some y ∧ stamp x ≤ stamp y := by
  by_cases hjk : j = k
  · subst j
    rcases write_apply_self stamp m k e with ⟨y, hy, _, hw⟩ | he
    · exact ⟨y, hw, by rw [Option.some.inj (hx.symm.trans hy)]⟩
    · refine ⟨e, he, ?_⟩
      by_contra! hlt
      rw [write_of_dominated stamp hx hlt.le] at he
      rw [Option.some.inj (hx.symm.trans he)] at hlt
      exact lt_irrefl _ hlt
  · exact ⟨x, by rw [write_apply_ne stamp hjk, hx], le_rfl⟩

theorem Latest.write {ws : List (K × E)} {m : K → Option E} (h : Latest stamp ws m)
    (k : K) (e : E) : Latest stamp (ws ++ [(k, e)]) (LastWriter.write stamp m k e) := by
  constructor
  · intro j x hx
    by_cases hjk : j = k
    · subst j
      rcases write_apply_self stamp m k e with ⟨y, hy, _, hw⟩ | he
      · rw [hw] at hx
        obtain rfl := Option.some.inj hx
        exact List.mem_append_left _ (h.written k y hy)
      · rw [he] at hx
        obtain rfl := Option.some.inj hx
        exact List.mem_append_right _ (List.mem_singleton_self _)
    · rw [write_apply_ne stamp hjk] at hx
      exact List.mem_append_left _ (h.written j x hx)
  · intro w hw
    rcases List.mem_append.1 hw with hw | hw
    · obtain ⟨x, hx, hle⟩ := h.dominated w hw
      obtain ⟨y, hy, hxy⟩ := write_mono stamp hx k e
      exact ⟨y, hy, hle.trans hxy⟩
    · rw [List.mem_singleton.1 hw]
      exact le_write_self stamp m k e

theorem Latest.writeAll {ws : List (K × E)} {m : K → Option E} (h : Latest stamp ws m)
    (vs : List (K × E)) : Latest stamp (ws ++ vs) (LastWriter.writeAll stamp m vs) := by
  induction vs generalizing ws m with
  | nil => simpa [LastWriter.writeAll] using h
  | cons v vs ih =>
      have hv := ih (h.write stamp v.1 v.2)
      rw [List.append_assoc] at hv
      exact hv

theorem latest_writeAll (ws : List (K × E)) :
    Latest stamp ws (LastWriter.writeAll stamp (fun _ => none) ws) := by
  simpa using (latest_nil stamp).writeAll stamp ws

end LastWriter
