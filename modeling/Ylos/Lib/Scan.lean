import Mathlib.Data.List.Basic

/-! # Scans that keep one item

A scan keeps an item until another one is better. Being better need not be an order: all
that is asked for is that what beats a kept item beats what the kept item withstood. -/

namespace Ylos.Scan

variable {α : Type*} {better : α → α → Prop} {l : List α} {a t : α}

def keep (better : α → α → Prop) [DecidableRel better] : Option α → α → Option α
  | none, a => some a
  | some b, a => if better a b then some a else some b

@[simp] theorem keep_some [DecidableRel better] (b a : α) :
    keep better (some b) a = if better a b then some a else some b := rfl

/-- What `t` has withstood: no later item is better, and every earlier one is beaten by `t` or by
an item between the two. -/
structure Kept (better : α → α → Prop) (l : List α) (t : α) (before after : List α) : Prop where
  split : l = before ++ t :: after
  later : ∀ x ∈ after, ¬better x t
  earlier : ∀ pre p post, before = pre ++ p :: post → better t p ∨ ∃ q ∈ post, better q p

theorem Kept.append {before after : List α} (h : Kept better l t before after) (ha : ¬better a t) :
    Kept better (l ++ [a]) t before (after ++ [a]) where
  split := by simp [h.split]
  later x hx := by
    rcases List.mem_append.mp hx with hx | hx
    · exact h.later x hx
    · rw [List.mem_singleton.mp hx]
      exact ha
  earlier := h.earlier

/-- A better item replaces the kept one. -/
theorem Kept.replace {before after : List α} (h : Kept better l t before after) (ha : better a t)
    (htrans : ∀ p b q, ¬better p b → better q b → better q p) :
    Kept better (l ++ [a]) a l [] where
  split := by simp
  later := by simp
  earlier pre p post hl := by
    have hsplit := h.split
    rw [hl] at hsplit
    rcases List.append_eq_append_iff.mp hsplit with ⟨mid, hbefore, hrest⟩ | ⟨mid, hpre, hafter⟩
    · cases mid with
      | nil =>
          obtain ⟨rfl, -⟩ := List.cons.inj hrest
          exact .inl ha
      | cons x mid =>
          -- `p` is before the item that was kept
          obtain ⟨rfl, rfl⟩ := List.cons.inj hrest
          right
          rcases h.earlier pre p mid hbefore with hbeats | ⟨q, hq, hbeats⟩
          · exact ⟨t, by simp, hbeats⟩
          · exact ⟨q, by simp [hq], hbeats⟩
    · cases mid with
      | nil =>
          obtain ⟨rfl, -⟩ := List.cons.inj hafter
          exact .inl ha
      | cons x mid =>
          -- `p` is after the item that was kept, and did not replace it
          obtain ⟨rfl, hlater⟩ := List.cons.inj hafter
          exact .inl (htrans p t a (h.later p (by simp [hlater])) ha)

/-- A scan goes on from what has been kept so far. -/
theorem Kept.scan [DecidableRel better] {seen : List α} {b : α} {before after : List α}
    (hb : Kept better seen b before after)
    (htrans : ∀ p b q, ¬better p b → better q b → better q p)
    (h : l.foldl (keep better) (some b) = some t) :
    ∃ before after, Kept better (seen ++ l) t before after := by
  induction l generalizing seen b before after with
  | nil =>
      obtain rfl : b = t := Option.some.inj h
      exact ⟨before, after, by simpa using hb⟩
  | cons a l ih =>
      rw [List.foldl_cons] at h
      rw [List.append_cons]
      rw [keep_some] at h
      split at h
      · rename_i ha
        exact ih (hb.replace ha htrans) h
      · rename_i ha
        exact ih (hb.append ha) h

theorem exists_kept [DecidableRel better]
    (htrans : ∀ p b q, ¬better p b → better q b → better q p)
    (h : l.foldl (keep better) none = some t) : ∃ before after, Kept better l t before after := by
  cases l with
  | nil => simp at h
  | cons a l =>
      have hfirst : Kept better [a] a [] [] := ⟨rfl, by simp, by simp⟩
      exact hfirst.scan htrans h

theorem foldl_keep_some [DecidableRel better] (l : List α) (b : α) :
    ∃ t, l.foldl (keep better) (some b) = some t := by
  induction l generalizing b with
  | nil => exact ⟨b, rfl⟩
  | cons a l ih =>
      rw [List.foldl_cons, keep_some]
      split
      · exact ih a
      · exact ih b

@[simp] theorem foldl_keep_eq_none [DecidableRel better] :
    l.foldl (keep better) none = none ↔ l = [] := by
  cases l with
  | nil => simp
  | cons a l =>
      obtain ⟨t, ht⟩ : ∃ t, l.foldl (keep better) (some a) = some t := foldl_keep_some l a
      simp only [List.foldl_cons, keep, ht, reduceCtorEq]

end Ylos.Scan
