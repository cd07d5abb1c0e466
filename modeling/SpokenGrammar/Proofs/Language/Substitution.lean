import Mathlib.Computability.Language

namespace SpokenGrammar

variable {α β γ : Type}

def substitute (f : α → Language β) (l : Language α) : Language β :=
  {w | ∃ p ∈ l, w ∈ (p.map f).prod}

theorem mem_substitute {f : α → Language β} {l : Language α} {w : List β} :
    w ∈ substitute f l ↔ ∃ p ∈ l, w ∈ (p.map f).prod :=
  Iff.rfl

theorem substitute_one (f : α → Language β) : substitute f 1 = 1 := by
  ext w
  simp [mem_substitute, Language.mem_one]

theorem substitute_word (f : α → Language β) (p : List α) :
    substitute f ({p} : Language α) = (p.map f).prod := by
  ext w
  constructor
  · rintro ⟨q, hq, hw⟩
    have hqp : q = p := hq
    exact hqp ▸ hw
  · intro hw
    exact ⟨p, rfl, hw⟩

theorem substitute_letter (f : α → Language β) (a : α) :
    substitute f ({[a]} : Language α) = f a := by
  rw [substitute_word, List.map_singleton, List.prod_singleton]

theorem substitute_add (f : α → Language β) (l m : Language α) :
    substitute f (l + m) = substitute f l + substitute f m := by
  ext w
  simp only [mem_substitute, Language.mem_add, or_and_right, exists_or]

theorem substitute_zero (f : α → Language β) : substitute f 0 = 0 := by
  ext w
  constructor
  · rintro ⟨p, hp, -⟩
    exact absurd hp (Language.notMem_zero p)
  · exact fun hw => absurd hw (Language.notMem_zero w)

theorem substitute_sum (f : α → Language β) (ls : List (Language α)) :
    substitute f ls.sum = (ls.map (substitute f)).sum := by
  induction ls with
  | nil => exact substitute_zero f
  | cons l ls ih => rw [List.sum_cons, substitute_add, ih, List.map_cons, List.sum_cons]

theorem substitute_mul (f : α → Language β) (l m : Language α) :
    substitute f (l * m) = substitute f l * substitute f m := by
  ext w
  constructor
  · rintro ⟨p, hp, hw⟩
    obtain ⟨a, ha, b, hb, rfl⟩ := Language.mem_mul.mp hp
    rw [List.map_append, List.prod_append] at hw
    obtain ⟨u, hu, v, hv, rfl⟩ := Language.mem_mul.mp hw
    exact Language.append_mem_mul ⟨a, ha, hu⟩ ⟨b, hb, hv⟩
  · intro hw
    obtain ⟨u, ⟨a, ha, hu⟩, v, ⟨b, hb, hv⟩, rfl⟩ := Language.mem_mul.mp hw
    refine ⟨a ++ b, Language.append_mem_mul ha hb, ?_⟩
    rw [List.map_append, List.prod_append]
    exact Language.append_mem_mul hu hv

theorem substitute_prod (f : α → Language β) (ls : List (Language α)) :
    substitute f ls.prod = (ls.map (substitute f)).prod := by
  induction ls with
  | nil => exact substitute_one f
  | cons l ls ih => rw [List.prod_cons, substitute_mul, ih, List.map_cons, List.prod_cons]

theorem substitute_congr {f g : α → Language β} {l : Language α}
    (h : ∀ p ∈ l, ∀ a ∈ p, f a = g a) : substitute f l = substitute g l := by
  ext w
  have hp : ∀ p ∈ l, p.map f = p.map g := fun p hp => List.map_congr_left (h p hp)
  constructor
  · rintro ⟨p, hl, hw⟩
    exact ⟨p, hl, hp p hl ▸ hw⟩
  · rintro ⟨p, hl, hw⟩
    exact ⟨p, hl, hp p hl ▸ hw⟩

theorem substitute_substitute (g : β → Language γ) (f : α → Language β) (l : Language α) :
    substitute g (substitute f l) = substitute (fun a => substitute g (f a)) l := by
  have hword : ∀ p : List α,
      substitute g (p.map f).prod = (p.map fun a => substitute g (f a)).prod := by
    intro p
    rw [substitute_prod, List.map_map]
    rfl
  ext w
  constructor
  · rintro ⟨q, ⟨p, hp, hq⟩, hw⟩
    refine ⟨p, hp, ?_⟩
    rw [← hword]
    exact ⟨q, hq, hw⟩
  · rintro ⟨p, hp, hw⟩
    rw [← hword] at hw
    obtain ⟨q, hq, hw⟩ := hw
    exact ⟨q, ⟨p, hp, hq⟩, hw⟩

theorem substitute_map (f : β → Language γ) (h : α → β) (l : Language α) :
    substitute f (Language.map h l) = substitute (f ∘ h) l := by
  ext w
  constructor
  · rintro ⟨q, ⟨p, hp, rfl⟩, hw⟩
    exact ⟨p, hp, by rwa [List.map_map] at hw⟩
  · rintro ⟨p, hp, hw⟩
    exact ⟨p.map h, ⟨p, hp, rfl⟩, by rwa [List.map_map]⟩

theorem prod_map_word (f : α → List β) (p : List α) :
    (p.map fun a => ({f a} : Language β)).prod = {p.flatMap f} := by
  induction p with
  | nil => rfl
  | cons a p ih =>
    rw [List.map_cons, List.prod_cons, ih, List.flatMap_cons, Language.mul_def]
    exact Set.image2_singleton

theorem map_eq_substitute (h : α → β) (l : Language α) :
    Language.map h l = substitute (fun a => {[h a]}) l := by
  have hword : ∀ p : List α, p.flatMap (fun a => [h a]) = p.map h := fun p =>
    List.map_eq_flatMap.symm
  ext w
  constructor
  · rintro ⟨p, hp, rfl⟩
    refine ⟨p, hp, ?_⟩
    rw [prod_map_word, hword]
    rfl
  · rintro ⟨p, hp, hw⟩
    rw [prod_map_word, hword] at hw
    exact ⟨p, hp, hw.symm⟩

theorem mem_substitute_word {f : α → List β} {l : Language α} {w : List β} :
    w ∈ substitute (fun a => {f a}) l ↔ ∃ p ∈ l, w = p.flatMap f := by
  simp only [mem_substitute, prod_map_word]
  rfl

end SpokenGrammar
