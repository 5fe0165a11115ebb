import TaskTidy.Proofs.ScalarText

/-!
# Reflowed documents

A pass that splits over-long lines gives every line an image, the line itself or its parts, and the
document is the images one after another. The parts of a line are within the limit and are never
split again. The value of a header that fits stands in the document without a gap, so its text keeps
the header as an ancestor and is its own image.
-/

namespace TaskTidy

namespace Buffer

variable {images : List (List Line)} {image : List Line} {i k m : Nat} {l : Line}

/-- The index of the first line of an image among the lines of all images. -/
def offset (images : List (List Line)) (k : Nat) : Nat :=
  (images.take k).flatten.length

theorem eq_take_append_drop (hk : images[k]? = some image) :
    images = images.take k ++ image :: images.drop (k + 1) := by
  obtain ⟨hlt, rfl⟩ := List.getElem?_eq_some_iff.1 hk
  rw [← List.drop_eq_getElem_cons hlt, List.take_append_drop]

theorem offset_succ (hk : images[k]? = some [l]) : offset images (k + 1) = offset images k + 1 := by
  rw [offset, offset, List.take_add_one, hk, Option.toList_some, List.flatten_append,
    List.length_append]
  rfl

/-- The lines of an image stand from its offset on. -/
theorem line_flatten_append {before after : List Line}
    (hk : images[k]? = some (before ++ l :: after)) :
    Buffer.line images.flatten (offset images k + before.length) = l := by
  have hcut := congrArg List.flatten (eq_take_append_drop hk)
  rw [List.flatten_append, List.flatten_cons, List.append_assoc] at hcut
  rw [hcut, line, List.getD_eq_getElem?_getD, offset, ← List.length_append, ← List.append_assoc,
    List.getElem?_append_right (Nat.le_refl _), Nat.sub_self]
  rfl

theorem line_flatten (hk : images[k]? = some [l]) :
    Buffer.line images.flatten (offset images k) = l := by
  have hk' : images[k]? = some ([] ++ l :: []) := hk
  exact line_flatten_append hk'

theorem offset_lt_length (hk : images[k]? = some [l]) :
    offset images k < images.flatten.length := by
  have hcut := congrArg (fun lists => lists.flatten.length) (eq_take_append_drop hk)
  simp only [List.flatten_append, List.flatten_cons, List.length_append, List.length_singleton]
    at hcut
  rw [offset]
  omega

/-- Lines that are their own images follow one another without a gap. -/
theorem offset_add (hm : ∀ j, k ≤ j → j < k + m → ∃ l, images[j]? = some [l]) :
    offset images (k + m) = offset images k + m := by
  induction m with
  | zero => rfl
  | succ m ih =>
      obtain ⟨l, hl⟩ := hm (k + m) (Nat.le_add_right k m) (Nat.lt_succ_self _)
      rw [← Nat.add_assoc, offset_succ hl, ih fun j hkj hj => hm j hkj (Nat.lt_succ_of_lt hj)]
      rfl

/-- Every line of the document is a line of an image. -/
theorem exists_of_lt_flatten (hi : i < images.flatten.length) :
    ∃ k before l after, images[k]? = some (before ++ l :: after) ∧
      i = offset images k + before.length := by
  induction images generalizing i with
  | nil => exact absurd hi (Nat.not_lt_zero i)
  | cons image images ih =>
      rw [List.flatten_cons, List.length_append] at hi
      by_cases him : i < image.length
      · refine ⟨0, image.take i, image[i], image.drop (i + 1), ?_, ?_⟩
        · rw [← List.drop_eq_getElem_cons him, List.take_append_drop]
          rfl
        · simp [offset]
          omega
      · obtain ⟨k, before, l, after, hk, hoffset⟩ := ih (i := i - image.length) (by omega)
        refine ⟨k + 1, before, l, after, hk, ?_⟩
        simp only [offset, List.take_succ_cons, List.flatten_cons, List.length_append] at hoffset ⊢
        omega

/-- A line that is its own image is replaced by its parts. -/
theorem flatten_set (hk : images[k]? = some [l]) (parts : List Line) :
    (images.set k parts).flatten =
      images.flatten.take (offset images k) ++ parts ++
        images.flatten.drop (offset images k + 1) := by
  have hset : images.set k parts = images.take k ++ parts :: images.drop (k + 1) := by
    obtain ⟨hlt, _⟩ := List.getElem?_eq_some_iff.1 hk
    exact List.set_eq_take_append_cons_drop.trans (if_pos hlt)
  have hcut := congrArg List.flatten (eq_take_append_drop hk)
  rw [List.flatten_append, List.flatten_cons] at hcut
  rw [hset, List.flatten_append, List.flatten_cons, hcut, offset]
  rw [List.take_left, List.append_assoc, List.drop_length_add_append]
  rfl

/-- The images of the lines of `b` under a reflow: a line or its parts, and the text of values below
headers that fit is left alone. -/
structure ReflowImages (limit : Nat) (b : Buffer) (images : List (List Line)) : Prop where
  length_eq : images.length = b.length
  image : ∀ {k image}, images[k]? = some image →
    image = [b.line k] ∨ Reflow.split? limit (b.line k) = some image
  value : ∀ {h}, (b.line h).opensScalar = true → Reflow.width (b.line h) ≤ limit →
    ∀ j ∈ b.valueLines h, images[j]? = some [b.line j]

namespace ReflowImages

variable {limit h j : Nat} {b : Buffer} {parts : List Line}

/-- Before the pass every line is its own image. -/
theorem start (limit : Nat) (b : Buffer) : ReflowImages limit b (b.map ([·])) where
  length_eq := List.length_map _
  image {k image} hk := by
    left
    rw [List.getElem?_map] at hk
    obtain ⟨l, hl, rfl⟩ := Option.map_eq_some_iff.1 hk
    rw [line, List.getD_eq_getElem?_getD, hl, Option.getD_some]
  value {h} _ _ j hj := by
    have hlen := (mem_valueLines_iff.1 hj).2.1
    rw [List.getElem?_map, List.getElem?_eq_getElem hlen, Option.map_some, line_eq_getElem b j hlen]

theorem flatten_start (b : Buffer) : (b.map ([·])).flatten = b := by
  induction b with
  | nil => rfl
  | cons l b ih => rw [List.map_cons, List.flatten_cons, ih, List.singleton_append]

/-- A line that can be split has not been split before. -/
theorem eq_singleton_of_split? (hr : ReflowImages limit b images) {before after : List Line}
    (hk : images[k]? = some (before ++ l :: after)) (hl : Reflow.split? limit l = some parts) :
    before = [] ∧ after = [] ∧ l = b.line k := by
  rcases hr.image hk with hown | hsplit
  · have hlen := congrArg List.length hown
    rw [List.length_append, List.length_cons, List.length_singleton] at hlen
    obtain rfl : before = [] := List.eq_nil_of_length_eq_zero (by omega)
    obtain rfl : after = [] := List.eq_nil_of_length_eq_zero (by omega)
    exact ⟨rfl, rfl, List.singleton_inj.1 hown⟩
  · have hwidth := (Reflow.of_split? hsplit).2 l (by simp)
    rw [Reflow.split?_eq_none hwidth] at hl
    cases hl

/-- A header that fits is its own image. -/
theorem getElem?_header (hr : ReflowImages limit b images) (hlen : h < b.length)
    (hwidth : Reflow.width (b.line h) ≤ limit) : images[h]? = some [b.line h] := by
  have hlt : h < images.length := by rwa [hr.length_eq]
  have hk := List.getElem?_eq_getElem hlt
  rcases hr.image hk with hown | hsplit
  · rw [hk, hown]
  · rw [Reflow.split?_eq_none hwidth] at hsplit
    cases hsplit

/-- The value of a header that fits is still the value of that header. -/
theorem inScalar (hr : ReflowImages limit b images) (hh : (b.line h).opensScalar = true)
    (hwidth : Reflow.width (b.line h) ≤ limit) (hj : j ∈ b.valueLines h)
    (htext : Text.allBlank (b.line j) = false) :
    Buffer.inScalar images.flatten (offset images j) = true := by
  obtain ⟨hhj, hlen, hrun⟩ := mem_valueLines_iff.1 hj
  have hheader := hr.getElem?_header (Nat.lt_trans hhj hlen) hwidth
  have hown : ∀ k, h ≤ k → k ≤ j → images[k]? = some [b.line k] := by
    intro k hhk hkj
    rcases Nat.eq_or_lt_of_le hhk with rfl | hhk
    · exact hheader
    · exact hr.value hh hwidth k (mem_valueLines_of_le hj hhk hkj)
  have hoffset : ∀ m, h + m ≤ j → offset images (h + m) = offset images h + m := fun m hm =>
    offset_add fun k hhk hk => ⟨_, hown k hhk (by omega)⟩
  have hmem : offset images j ∈ Buffer.valueLines images.flatten (offset images h) := by
    have hj' := hoffset (j - h) (by omega)
    rw [show h + (j - h) = j by omega] at hj'
    have hlen := offset_lt_length (hown j (Nat.le_of_lt hhj) (Nat.le_refl j))
    refine mem_valueLines_iff.2 ⟨by omega, hlen, fun k hk hkj => ?_⟩
    have hk' := hoffset (k - offset images h) (by omega)
    have hline := line_flatten (hown (h + (k - offset images h)) (by omega) (by omega))
    rw [hk', show offset images h + (k - offset images h) = k by omega] at hline
    rw [hline, line_flatten hheader]
    exact hrun _ (by omega) (by omega)
  refine inScalar_of_mem_valueLines ?_ hmem ?_
  · rwa [line_flatten hheader]
  · rwa [line_flatten (hown j (Nat.le_of_lt hhj) (Nat.le_refl j))]

/-- Splitting a line outside block scalars changes its image and no other. -/
theorem split (hr : ReflowImages limit b images) (hk : images[k]? = some [b.line k])
    (hparts : Reflow.split? limit (b.line k) = some parts)
    (houtside : Buffer.inScalar images.flatten (offset images k) = false) :
    ReflowImages limit b (images.set k parts) where
  length_eq := by rw [List.length_set, hr.length_eq]
  image {m image} hm := by
    by_cases hmk : k = m
    · subst hmk
      obtain ⟨hlt, _⟩ := List.getElem?_eq_some_iff.1 hk
      rw [List.getElem?_set_self hlt] at hm
      cases hm
      exact Or.inr hparts
    · rw [List.getElem?_set_ne hmk] at hm
      exact hr.image hm
  value {h} hh hwidth j hj := by
    by_cases hjk : k = j
    · subst hjk
      have htext := Reflow.allBlank_of_split? hparts
      rw [hr.inScalar hh hwidth hj htext] at houtside
      cases houtside
    · rw [List.getElem?_set_ne hjk]
      exact hr.value hh hwidth j hj

end ReflowImages

end Buffer

namespace Pass

variable {limit : Nat} {b b' : Buffer} {i : Nat} {v : Visit}

/-- A visit keeps the document a list of images. -/
theorem reflowImages_visit {images : List (List Line)} (hi : i < images.flatten.length)
    (hr : b.ReflowImages limit images)
    (hv : visit (RuleSets.lineLength limit) images.flatten i = .ok v) :
    ∃ images', v.buffer = images'.flatten ∧ b.ReflowImages limit images' := by
  rcases RuleSets.visit_lineLength_cases hi hv with hbuffer | ⟨parts, hparts, houtside, hbuffer⟩
  · exact ⟨images, hbuffer, hr⟩
  · obtain ⟨k, before, l, after, hk, rfl⟩ := Buffer.exists_of_lt_flatten hi
    rw [Buffer.line_flatten_append hk] at hparts
    obtain ⟨rfl, rfl, rfl⟩ := hr.eq_singleton_of_split? hk hparts
    refine ⟨images.set k parts, ?_, hr.split hk hparts houtside⟩
    rw [hbuffer, Buffer.flatten_set hk]
    rfl

end Pass

namespace Document

open RuleSets

variable {d : Document} {outcome : Outcome} {limit : Nat}

/-- A pass leaves the images of the lines one after another. -/
theorem exists_reflowImages (hpass : d.applyPass (lineLength limit) = .ok outcome) :
    ∃ images, outcome.document.lines = images.flatten ∧ d.lines.ReflowImages limit images := by
  refine applyPassWithin_induction
    (motive := fun b => ∃ images, b = images.flatten ∧ d.lines.ReflowImages limit images)
    ?_ ?_ hpass
  · rintro b i v hi ⟨images, rfl, hr⟩ hv
    exact Pass.reflowImages_visit hi hr hv
  · exact ⟨_, (Buffer.ReflowImages.flatten_start d.lines).symm, .start limit d.lines⟩

/-- The sets that stay out of block scalars leave their text alone: at the same index, or for a
reflow as its own image, as long as the header fits. -/
theorem scalarText_kept :
    (∀ s ∈ [truthy, commaSpacing, nameCasing], ∀ (d : Document) (outcome : Outcome),
      d.applyPass s = .ok outcome → ∀ h, (d.lines.line h).opensScalar = true →
        ∀ j ∈ d.lines.valueLines h, outcome.document.lines[j]? = d.lines[j]?) ∧
    ∀ (limit : Nat) (d : Document) (outcome : Outcome),
      d.applyPass (lineLength limit) = .ok outcome →
        ∃ images : List (List Line), outcome.document.lines = images.flatten ∧
          images.length = d.lines.length ∧
          (∀ k image, images[k]? = some image → image = [d.lines.line k] ∨
            Reflow.split? limit (d.lines.line k) = some image) ∧
          ∀ h, (d.lines.line h).opensScalar = true → Reflow.width (d.lines.line h) ≤ limit →
            ∀ j ∈ d.lines.valueLines h, images[j]? = some [d.lines.line j] := by
  constructor
  · intro s hs d outcome hpass h hh j hj
    exact (keepsValue_of_mem hs hpass hh).getElem?_eq hj
  · intro limit d outcome hpass
    obtain ⟨images, hlines, hr⟩ := exists_reflowImages hpass
    exact ⟨images, hlines, hr.length_eq, fun k image hk => hr.image hk,
      fun h hh hwidth j hj => hr.value hh hwidth j hj⟩

/-- A script below a task that both sets rewrite: a truthy value behind it is normalized, an
over-long list behind it is split, and the script stays. -/
theorem scalarText_kept_script :
    (∃ outcome, (ofLines ["- shell: |".toList, "    flag: yes".toList,
        "  become: yes".toList]).applyPass truthy = .ok outcome ∧
      outcome.document.lines[1]? = some "    flag: yes".toList ∧
      outcome.document.lines[2]? = some "  become: true".toList) ∧
    ∃ outcome images, (ofLines ["- shell: |".toList, "    ls aa, bb, cc".toList,
        "  vars: aa, bb".toList]).applyPass (lineLength 13) = .ok outcome ∧
      outcome.document.lines = List.flatten images ∧ outcome.document.lines.length = 4 ∧
      images[1]? = some ["    ls aa, bb, cc".toList] := by
  obtain ⟨hkept, himages⟩ := scalarText_kept
  constructor
  · have hpass : (ofLines ["- shell: |".toList, "    flag: yes".toList,
        "  become: yes".toList]).applyPass truthy =
          .ok ⟨ofLines ["- shell: |".toList, "    flag: yes".toList, "  become: true".toList], true,
            [⟨"truthy", ⟨"truthy-value", 3⟩⟩]⟩ := by
      decide +kernel
    exact ⟨_, hpass, hkept truthy List.mem_cons_self _ _ hpass 0 (by decide +kernel) 1
      (by decide +kernel), rfl⟩
  · have hpass : (ofLines ["- shell: |".toList, "    ls aa, bb, cc".toList,
        "  vars: aa, bb".toList]).applyPass (lineLength 13) =
          .ok ⟨ofLines ["- shell: |".toList, "    ls aa, bb, cc".toList, "  vars: aa,".toList,
            "    bb".toList], true, [⟨"line-length", ⟨"reflow", 3⟩⟩]⟩ := by
      decide +kernel
    obtain ⟨images, hlines, _, _, hvalue⟩ := himages 13 _ _ hpass
    exact ⟨_, images, hpass, hlines, rfl, hvalue 0 (by decide +kernel) (by decide +kernel) 1
      (by decide +kernel)⟩

end Document

end TaskTidy
