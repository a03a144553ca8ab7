/-
What arguments that make sense can say.

Whatever is taken from a command line goes by the name of an option of the tool, and a value that is
taken is one that the option admits (`read_admits`).  So the work of a tool never sees a choice that is
not among those allowed.
-/
import SolidityKit.CommandLine.Arguments

namespace SolidityKit.CommandLine

namespace Arguments

/-- Each option goes by the name of a switch, and has a value that the switch admits if it is to have one. -/
def Admitted (switches : List Switch) (given : Given) : Prop :=
  ∀ e ∈ given, ∃ s ∈ switches, s.name = e.1 ∧ (s.role.hasValue = true → s.role.admits e.2 = true)

/-- All options among the arguments are switches. -/
def AllKnown (switches : List Switch) (parts : List Argument) : Prop :=
  ∀ s isShort attached, Argument.option s isShort attached ∈ parts → s ∈ switches

variable {switches : List Switch}

theorem mem_of_candidates {t : Points} {s : Switch} {isShort : Bool} {attached : Option Points}
    (h : Argument.option s isShort attached ∈ candidates switches t) : s ∈ switches := by
  unfold candidates at h
  split at h
  · obtain ⟨s', hs', heq⟩ := List.mem_map.mp h
    cases heq
    exact (List.mem_filter.mp hs').1
  · obtain ⟨s', hs', heq⟩ := List.mem_map.mp h
    cases heq
    exact (List.mem_filter.mp hs').1
  · cases h

theorem mem_of_classify {arg : Points} {s : Switch} {isShort : Bool} {attached : Option Points}
    (h : classify switches arg = some (.option s isShort attached)) : s ∈ switches := by
  unfold classify at h
  dsimp only at h
  split at h
  · split at h
    · next hnamed =>
        cases h
        exact List.mem_of_find?_eq_some hnamed
    · split at h
      · next hnamed =>
          cases h
          exact List.mem_of_find?_eq_some hnamed
      · split at h
        · next hone =>
            cases h
            apply mem_of_candidates
            rw [hone]
            exact List.mem_singleton_self _
        · split at h <;> cases h
        · cases h
  · cases h

theorem allKnown_classifyAll {args : List Points} {parts : List Argument}
    (h : classifyAll switches args = some parts) : AllKnown switches parts := by
  induction args generalizing parts with
  | nil =>
      cases h
      intro s isShort attached hmem
      cases hmem
  | cons arg rest ih =>
      intro s isShort attached hmem
      rw [classifyAll] at h
      by_cases hdashes : arg = "--"
      · rw [if_pos hdashes] at h
        cases h
        rcases List.mem_cons.mp hmem with heq | hword
        · cases heq
        · obtain ⟨word, -, heq⟩ := List.mem_map.mp hword
          cases heq
      · rw [if_neg hdashes] at h
        obtain ⟨first, hfirst, h⟩ := Option.bind_eq_some_iff.mp h
        obtain ⟨more, hmore, h⟩ := Option.bind_eq_some_iff.mp h
        cases h
        rcases List.mem_cons.mp hmem with heq | hrest
        · rw [← heq] at hfirst
          exact mem_of_classify hfirst
        · exact ih hmore s isShort attached hrest

theorem mem_of_runTogether {t : Points} {flags : List Switch} (h : runTogether switches t = some flags) :
    ∀ s ∈ flags, s ∈ switches ∧ s.role.hasValue = false := by
  induction t generalizing flags with
  | nil =>
      cases h
      intro s hs
      cases hs
  | cons c rest ih =>
      obtain ⟨s, hs, h⟩ := Option.bind_eq_some_iff.mp h
      obtain ⟨u, hguard, h⟩ := Option.bind_eq_some_iff.mp h
      obtain ⟨more, hmore, h⟩ := Option.bind_eq_some_iff.mp h
      cases h
      have hflag : s.role.hasValue = false := by
        cases hvalue : s.role.hasValue with
        | true => rw [hvalue] at hguard; cases hguard
        | false => rfl
      exact List.forall_mem_cons.mpr ⟨⟨List.mem_of_find?_eq_some hs, hflag⟩, ih hmore⟩

theorem mem_of_flags? {s : Switch} {isShort : Bool} {attached : Option Points} {flags : List Switch}
    (hs : s ∈ switches) (hflag : s.role.hasValue = false)
    (h : flags? switches s isShort attached = some flags) :
    ∀ f ∈ flags, f ∈ switches ∧ f.role.hasValue = false := by
  unfold flags? at h
  cases attached with
  | none =>
      cases h
      exact List.forall_mem_cons.mpr ⟨⟨hs, hflag⟩, fun f hf => by cases hf⟩
  | some more =>
      dsimp only at h
      split at h
      · obtain ⟨others, hothers, rfl⟩ := Option.map_eq_some_iff.mp h
        exact List.forall_mem_cons.mpr ⟨⟨hs, hflag⟩, mem_of_runTogether hothers⟩
      · cases h

theorem Admitted.flags {given : Given} (h : Admitted switches given) {flags : List Switch}
    (hflags : ∀ f ∈ flags, f ∈ switches ∧ f.role.hasValue = false) :
    Admitted switches (given ++ flags.map fun f => (f.name, [])) := by
  intro e he
  rcases List.mem_append.mp he with he | he
  · exact h e he
  · obtain ⟨f, hf, rfl⟩ := List.mem_map.mp he
    obtain ⟨hmem, hflag⟩ := hflags f hf
    refine ⟨f, hmem, rfl, fun hvalue => ?_⟩
    rw [hflag] at hvalue
    cases hvalue

theorem Admitted.value {given : Given} (h : Admitted switches given) {s : Switch} (hs : s ∈ switches)
    {value : Points}
    (hvalue : s.role.admits value = true) : Admitted switches (given ++ [(s.name, value)]) := by
  intro e he
  rcases List.mem_append.mp he with he | he
  · exact h e he
  · rw [List.mem_singleton.mp he]
    exact ⟨s, hs, rfl, fun _ => hvalue⟩

theorem of_takeFlags {given given' : Given} {next : Given → Request} {flags : Option (List Switch)}
    (h : takeFlags given next flags = .options given') :
    ∃ fs, flags = some fs ∧ next (given ++ fs.map fun f => (f.name, [])) = .options given' := by
  cases flags with
  | none => cases h
  | some fs =>
      change (if (fs.any fun s => s.role = .help) = true then Request.help else _) = _ at h
      split at h
      · cases h
      · exact ⟨fs, rfl, h⟩

theorem of_takeValue {given given' : Given} {next : Given → Request} {s : Switch} {value : Points}
    (h : takeValue given next s value = .options given') :
    s.role.admits value = true ∧ next (given ++ [(s.name, value)]) = .options given' := by
  unfold takeValue at h
  split at h
  · next hadmits => exact ⟨hadmits, h⟩
  · cases h

/-- What stands in one argument and the next may be taken together, so the induction is on how many are left. -/
theorem admitted_consume {parts : List Argument} (hparts : AllKnown switches parts) {strays : Bool}
    {given given' : Given}
    (hgiven : Admitted switches given) (h : consume switches parts strays given = .options given') :
    Admitted switches given' := by
  induction hn : parts.length using Nat.strongRecOn generalizing parts strays given with
  | _ n ih =>
    subst hn
    -- The options that are left are all known, whatever is taken off the front.
    have hrest {left : List Argument} {strays' : Bool} {more : Given} (hleft : left <:+ parts)
        (hshort : left.length < parts.length) (hmore : Admitted switches more)
        (hnext : consume switches left strays' more = .options given') : Admitted switches given' :=
      ih _ hshort (fun s isShort attached hmem => hparts s isShort attached (hleft.subset hmem)) hmore hnext rfl
    revert h
    fun_cases consume switches parts strays given <;> intro h
    case case1 => cases h
    case case2 =>
      cases h
      exact hgiven
    case case3 | case4 => exact hrest (List.suffix_cons _ _) (Nat.lt_succ_self _) hgiven h
    case case5 s isShort value left hvalue =>
      obtain ⟨hadmits, hnext⟩ := of_takeValue h
      have hmore := hgiven.value (hparts _ _ _ List.mem_cons_self) hadmits
      exact hrest ((List.suffix_cons _ _).trans (List.suffix_cons _ _)) (by simp only [List.length_cons]; omega)
        hmore hnext
    case case6 s isShort value left hvalue =>
      obtain ⟨flags, hflags, hnext⟩ := of_takeFlags h
      have hmore := hgiven.flags (mem_of_flags? (hparts _ _ _ List.mem_cons_self)
        (by simpa using hvalue) hflags)
      exact hrest (List.suffix_cons _ _) (Nat.lt_succ_self _) hmore hnext
    case case7 s isShort left value _ _ =>
      obtain ⟨hadmits, hnext⟩ := of_takeValue h
      have hmore := hgiven.value (hparts _ _ _ List.mem_cons_self) hadmits
      exact hrest (List.suffix_cons _ _) (Nat.lt_succ_self _) hmore hnext
    case case8 => cases h
    case case9 s isShort attached left _ hvalue =>
      obtain ⟨flags, hflags, hnext⟩ := of_takeFlags h
      have hmore := hgiven.flags (mem_of_flags? (hparts _ _ _ List.mem_cons_self) hvalue hflags)
      exact hrest (List.suffix_cons _ _) (Nat.lt_succ_self _) hmore hnext

theorem read_admits {args : List Points} {given : Given} (h : read switches args = .options given) :
    Admitted (.help :: switches) given := by
  unfold read at h
  split at h
  · next hparts => exact admitted_consume (allKnown_classifyAll hparts) (fun e he => by cases he) h
  · cases h

end Arguments

end SolidityKit.CommandLine
