import Netpull.Server.Path

/-!
# Children and relative paths

`IsChildOf` compares bytes and `RelativeTo` cuts off one byte more than the other path has. Both are
meant to speak about components (`AgreesWithComponents`); `agreesWithComponents_iff` says for which
paths they do.
-/

namespace Netpull

open Separated

/-- `IsChildOf` tells whether the components of one path begin with those of another, and if so
`RelativeTo` gives those that are left, from which the other path leads back. -/
structure AgreesWithComponents (path other : Bytes) : Prop where
  child : ∃ b, isChildOf path other = .ok b ∧ (b = true ↔ components other <+: components path)
  relative : isChildOf path other = .ok true → path ≠ other →
    ∃ rel, relativeTo path other = .ok rel ∧
      rel = [slash].intercalate ((components path).drop (components other).length) ∧
      join other rel = path

theorem isChildOf_eq {self other : Bytes} (habs : isAbsolute self = true)
    (hres : isResolved self = true) (habs' : isAbsolute other = true)
    (hres' : isResolved other = true) : isChildOf self other = .ok (startsWith self other) := by
  simp [isChildOf, habs, hres, habs', hres', pure, Except.pure]

/-- The names of a location begin with those of another exactly if its path goes on after the
other's with a slash, or not at all. -/
theorem names_prefix_iff (l m : Location) :
    m.names <+: l.names ↔ l.path = m.path ∨ m.path ++ [slash] <+: l.path := by
  constructor
  · rintro ⟨rest, hrest⟩
    rw [Location.path, Location.path, ← hrest, spell_append]
    by_cases hne : rest = []
    · exact .inl (by rw [hne, spell_nil, List.append_nil])
    · rw [spell_eq hne, ← List.singleton_append (x := slash), ← List.append_assoc]
      exact .inr (List.prefix_append _ _)
  · rintro (h | ⟨t, ht⟩)
    · have hnames := congrArg components h
      rw [l.components_path, m.components_path] at hnames
      exact hnames ▸ List.prefix_refl _
    · have hnames := congrArg components ht
      rw [List.append_assoc, List.singleton_append, components_append, l.components_path,
        m.components_path] at hnames
      exact ⟨_, hnames⟩

theorem agreesWithComponents_location (l m : Location) :
    AgreesWithComponents l.path m.path ↔
      (m.path <+: l.path → l.path = m.path ∨ m.path ++ [slash] <+: l.path) := by
  have hchild := isChildOf_location l m
  rw [← names_prefix_iff]
  constructor
  · intro h hpre
    obtain ⟨b, hb, hiff⟩ := h.child
    rw [hchild, startsWith_iff.2 hpre] at hb
    rw [l.components_path, m.components_path] at hiff
    exact hiff.1 (Except.ok.inj hb).symm
  · intro h
    refine ⟨⟨_, hchild, ?_⟩, fun htrue hneq => ?_⟩
    · rw [startsWith_iff, l.components_path, m.components_path]
      refine ⟨h, fun hnames => ?_⟩
      rcases (names_prefix_iff l m).1 hnames with heq | hslash
      · exact heq ▸ List.prefix_refl _
      · exact (List.prefix_append _ _).trans hslash
    · rw [hchild] at htrue
      obtain ⟨rest, hrest⟩ := h (startsWith_iff.1 (Except.ok.inj htrue))
      have hproper : ∀ n ∈ rest, ProperName n :=
        fun n hn => l.proper n (hrest ▸ List.mem_append_right _ hn)
      have hl : l.path = (m.below rest hproper).path := by
        simp only [Location.path, Location.below, hrest]
      have hne : rest ≠ [] := by
        rintro rfl
        rw [List.append_nil] at hrest
        exact hneq (by rw [Location.path, Location.path, hrest])
      refine ⟨[slash].intercalate rest, ?_, ?_, ?_⟩
      · rw [hl, relativeTo_below m hne hproper]
      · rw [l.components_path, m.components_path, ← hrest, List.drop_left]
      · rw [Location.path, join_names m.ne_nil m.proper hne hproper, hl]
        rfl

/-- Below `/`, `RelativeTo` cuts off the first byte of the first name. -/
theorem not_agreesWithComponents_root (l : Location) : ¬ AgreesWithComponents l.path [slash] := by
  intro h
  have hchild : isChildOf l.path [slash] = .ok true := by
    rw [isChildOf_eq l.isAbsolute_path l.isResolved_path rfl rfl]
    exact congrArg Except.ok l.isAbsolute_path
  obtain ⟨rel, hrel, hnames, _⟩ := h.relative hchild l.path_ne_root
  have hnil : components [slash] = [] := rfl
  have hlen : l.path.length = rel.length + 1 := by
    rw [hnames, hnil, l.components_path, List.length_nil, List.drop_zero, Location.path,
      spell_eq l.ne_nil, List.length_cons]
  simp only [relativeTo, hchild, netpullAssert_true, ok_bind] at hrel
  rw [List.length_singleton, substr] at hrel
  split at hrel
  · have hdrop := congrArg List.length (Except.ok.inj hrel)
    rw [List.length_drop] at hdrop
    omega
  · cases hrel

theorem agreesWithComponents_of_root (m : Location) : AgreesWithComponents [slash] m.path := by
  have hnot : startsWith [slash] m.path = false := by
    rw [Bool.eq_false_iff, ne_eq, startsWith_iff]
    exact m.not_prefix_root
  have hchild : isChildOf [slash] m.path = .ok false := by
    rw [isChildOf_eq rfl rfl m.isAbsolute_path m.isResolved_path, hnot]
  refine ⟨⟨false, hchild, ?_⟩, fun htrue => ?_⟩
  · have hnil : components [slash] = [] := rfl
    rw [hnil, m.components_path, List.prefix_nil]
    exact iff_of_false Bool.false_ne_true m.ne_nil
  · rw [hchild] at htrue
    cases htrue

/-- **`IsChildOf` and `RelativeTo` speak about components** exactly if the other path is not `/`, or
both are, and the path does not go on inside the other's last name. -/
theorem agreesWithComponents_iff {self other : Bytes} (habs : isAbsolute self = true)
    (hres : isResolved self = true) (habs' : isAbsolute other = true)
    (hres' : isResolved other = true) :
    AgreesWithComponents self other ↔
      (other = [slash] → self = [slash]) ∧
      (other <+: self → self = other ∨ other ++ [slash] <+: self) := by
  by_cases hother : other = [slash]
  · subst hother
    by_cases hself : self = [slash]
    · subst hself
      have hagrees : AgreesWithComponents [slash] [slash] :=
        ⟨⟨true, rfl, iff_of_true rfl (List.prefix_refl _)⟩, fun _ hneq => absurd rfl hneq⟩
      exact iff_of_true hagrees ⟨fun _ => rfl, fun _ => .inl rfl⟩
    · obtain ⟨l, rfl⟩ := exists_location habs hres hself
      exact iff_of_false (not_agreesWithComponents_root l) fun h => hself (h.1 rfl)
  · obtain ⟨m, rfl⟩ := exists_location habs' hres' hother
    by_cases hself : self = [slash]
    · subst hself
      exact iff_of_true (agreesWithComponents_of_root m)
        ⟨fun h => absurd h hother, fun h => absurd h m.not_prefix_root⟩
    · obtain ⟨l, rfl⟩ := exists_location habs hres hself
      rw [agreesWithComponents_location]
      exact ⟨fun h => ⟨fun e => absurd e hother, h⟩, fun h => h.2⟩

theorem agreesWithComponents_iff_srv :
    AgreesWithComponents (text "/srv/a/b") (text "/srv") ↔
      (text "/srv" = [slash] → text "/srv/a/b" = [slash]) ∧
      (text "/srv" <+: text "/srv/a/b" →
        text "/srv/a/b" = text "/srv" ∨ text "/srv" ++ [slash] <+: text "/srv/a/b") :=
  agreesWithComponents_iff (by decide) (by decide) (by decide) (by decide)

/-- `/srvx` passes for a child of `/srv`, and `/ab` relative to `/` is `b`. -/
theorem srvx_not_agreesWithComponents :
    ¬ AgreesWithComponents (text "/srvx") (text "/srv") ∧
    ¬ AgreesWithComponents (text "/ab") (text "/") := by
  constructor
  · intro h
    obtain ⟨b, hb, hiff⟩ := h.child
    have htrue : isChildOf (text "/srvx") (text "/srv") = .ok true := by decide
    rw [htrue] at hb
    exact absurd (hiff.1 (Except.ok.inj hb).symm) (by decide)
  · intro h
    obtain ⟨rel, hrel, hnames, _⟩ := h.relative (by decide) (by decide)
    have hcut : relativeTo (text "/ab") (text "/") = .ok (text "b") := by decide
    rw [hcut] at hrel
    exact absurd (Except.ok.inj hrel ▸ hnames) (by decide)

end Netpull
