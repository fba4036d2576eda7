import Mathlib.Data.List.Forall2
import Mathlib.Data.List.Induction

namespace Prismal.Lib
set_option autoImplicit true

/-! Chains of entries, each of which names the hash of the one before. -/

/-- `link prev e` is the hash of an entry that is in order after `prev`. -/
def Chained (link : η → ε → Option η) : η → List ε → η → Prop
  | prev, [], last => prev = last
  | prev, e :: es, last => ∃ h, link prev e = some h ∧ Chained link h es last

variable {link : η → ε → Option η} {R : ε → ε → Prop} {prev last : η} {es fs : List ε}

theorem chained_concat :
    Chained link prev (es ++ [e]) last ↔ ∃ h, Chained link prev es h ∧ link h e = some last := by
  induction es generalizing prev with
  | nil =>
    constructor
    · rintro ⟨h, hlink, rfl⟩
      exact ⟨prev, rfl, hlink⟩
    · rintro ⟨h, rfl, hlink⟩
      exact ⟨last, hlink, rfl⟩
  | cons d es ih =>
    constructor
    · rintro ⟨h, hlink, hrest⟩
      obtain ⟨m, hm, hlast⟩ := ih.1 hrest
      exact ⟨m, ⟨h, hlink, hm⟩, hlast⟩
    · rintro ⟨m, ⟨h, hlink, hm⟩, hlast⟩
      exact ⟨h, hlink, ih.2 ⟨m, hm, hlast⟩⟩

theorem Chained.determined
    (hlink : ∀ p q e f h, link p e = some h → link q f = some h → p = q ∧ R e f)
    (hstart : ∀ p, ∀ e ∈ es ++ fs, link p e ≠ some prev) (hes : Chained link prev es last)
    (hfs : Chained link prev fs last) : List.Forall₂ R es fs := by
  induction es using List.reverseRecOn generalizing fs last with
  | nil =>
    cases fs using List.reverseRecOn with
    | nil => exact List.Forall₂.nil
    | append_singleton fs f =>
      obtain ⟨m, -, hm⟩ := chained_concat.1 hfs
      rw [← hes] at hm
      exact absurd hm (hstart m f (by simp))
  | append_singleton es e ih =>
    obtain ⟨m, hm, he⟩ := chained_concat.1 hes
    cases fs using List.reverseRecOn with
    | nil =>
      rw [← hfs] at he
      exact absurd he (hstart m e (by simp))
    | append_singleton fs f =>
      obtain ⟨m', hm', hf⟩ := chained_concat.1 hfs
      obtain ⟨rfl, hsame⟩ := hlink m m' e f last he hf
      have hrest : List.Forall₂ R es fs := by
        apply ih _ hm hm'
        intro p d hd
        apply hstart p d
        rcases List.mem_append.1 hd with hd | hd
        · exact List.mem_append_left _ (List.mem_append_left _ hd)
        · exact List.mem_append_right _ (List.mem_append_left _ hd)
      exact List.rel_append hrest (List.Forall₂.cons hsame List.Forall₂.nil)

end Prismal.Lib
