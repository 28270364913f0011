import NestedWork.Proofs.World.Share

/-!
# The world divided into shares

Several trees stand side by side in one world, each with all that belongs to it. What is done on one
of them is seen in its own view only, and there it is what would be done if the tree were alone.
-/

namespace NestedWork

open World (NoneKept)

/-- A world, and the shares that some trees have in it. -/
structure Division where
  world : World
  shares : Nat → Share

namespace Division

/-- The view of one of the shares. -/
def view (d : Division) (home p : Nat) : World := d.world.view home (d.shares p)

/-- An action is taken on a share, and the share gets all that comes about by it. -/
def perform (d : Division) (p : Nat) (a : World.Action) : Division where
  world := d.world.perform a
  shares := Function.update d.shares p ((d.shares p).grow d.world (d.world.perform a))

/-- Another thread works on a share. -/
def handTo (d : Division) (p thread : Nat) : Division :=
  { d with shares := Function.update d.shares p { d.shares p with thread } }

/-- A commit of a unit of a share is begun on a thread, which works on the share from then on. -/
def begin (d : Division) (p u thread : Nat) : Division :=
  (d.handTo p thread).perform p (.commit u thread)

/-- What is done next on a share depends on nothing but its view, and is done in the world under the
names of the share. -/
def proceed (d : Division) (conduct : World → World.Action) (home p : Nat) : Division :=
  d.perform p ((conduct (d.view home p)).rename ((d.shares p).naming home d.world))

/-- Time passes. -/
def tick (d : Division) (nanos : Nat) : Division :=
  { d with world := d.world.perform (.tick nanos) }

/-- The shares are complete in themselves and have nothing in common, in a world that a run
reaches. -/
structure Proper (managers : List Manager) (d : Division) : Prop where
  run : ∃ past, d.world = (World.initial managers).run past
  fits : ∀ p, (d.shares p).Fits d.world
  apart : ∀ {p q : Nat}, p ≠ q → (d.shares p).Apart (d.shares q)

/-- What is in no share is as it is in a given world. -/
structure Spares (d : Division) (w : World) : Prop where
  units : ∀ u, (∀ p, u ∉ (d.shares p).units) → d.world.units[u]? = w.units[u]?
  transactions : ∀ n, (∀ p, n ∉ (d.shares p).transactions) →
    d.world.transactions[n]? = w.transactions[n]?
  operations : ∀ c, (∀ p, c ∉ (d.shares p).operations) →
    d.world.operations[c]? = w.operations[c]?

/-- The shares have what they had, and may have got more. -/
structure Growth (d d' : Division) : Prop where
  grows : d.world.Grows d'.world
  units : ∀ p, Keeps (d.shares p).units (d'.shares p).units d.world.units.length
  transactions : ∀ p,
    Keeps (d.shares p).transactions (d'.shares p).transactions d.world.transactions.length
  operations : ∀ p,
    Keeps (d.shares p).operations (d'.shares p).operations d.world.operations.length

/-- Something is done on one share, which is seen in its own view only. -/
structure Touches (managers : List Manager) (home p : Nat) (l : World) (d d' : Division) :
    Prop where
  proper : d'.Proper managers
  view : d'.view home p = l
  grows : d.world.Grows d'.world
  grown : ∃ thread, d'.shares p = { (d.shares p).grow d.world d'.world with thread }
  others : ∀ {q : Nat}, q ≠ p → d'.shares q = d.shares q ∧ d'.view home q = d.view home q
  alone : (d.shares p).Alone d.world d'.world

variable {managers : List Manager} {d d' : Division} {home p q thread u : Nat} {a : World.Action}
  {w : World}

theorem view_handTo_ne (d : Division) (home thread : Nat) (ne : q ≠ p) :
    (d.handTo p thread).view home q = d.view home q := by
  have other : (d.handTo p thread).shares q = d.shares q := Function.update_of_ne ne ..
  rw [view, other]
  rfl

/-- A share on which nothing has been done looks the same to any thread, if no unit of it was opened
on that thread or at home. -/
theorem view_handTo (idle : (d.shares p).operations = []) (own : (d.shares p).thread = home)
    (away : ∀ x ∈ (d.view home p).units, x.thread ≠ home ∧ x.thread ≠ thread) :
    (d.handTo p thread).view home p = d.view home p := by
  have handed : (d.handTo p thread).shares p = { d.shares p with thread } :=
    Function.update_self ..
  have units : (gather d.world.units (d.shares p).units).map
      (UnitOfWork.rename (Share.places { d.shares p with thread } home)) =
        (gather d.world.units (d.shares p).units).map
          (UnitOfWork.rename ((d.shares p).places home)) := by
    refine List.map_congr_left fun x mem => ?_
    have there := away _ (List.mem_map_of_mem mem)
    have same : (x.rename ((d.shares p).places home)).thread = x.thread := by
      simp [UnitOfWork.rename, Share.places, own]
    rw [same] at there
    refine UnitOfWork.rename_congr rfl rfl ?_
    change Equiv.swap home thread x.thread = Equiv.swap home (d.shares p).thread x.thread
    rw [Equiv.swap_apply_of_ne_of_ne there.1 there.2, own, Equiv.swap_self, Equiv.refl_apply]
  have managers : (d.world.managers.map fun M =>
      (M.keep fun u => decide (u ∈ (d.shares p).units)).rename
        (Share.places { d.shares p with thread } home)) = (d.view home p).managers :=
    List.map_congr_left fun M _ => by cases M <;> rfl
  have operations : (gather d.world.operations (d.shares p).operations).map
      (Operation.rename (Share.places { d.shares p with thread } home)) =
        (d.view home p).operations := by
    simp only [view, World.view, idle]
    rfl
  rw [view, handed]
  exact congrArg₂ (fun units rest => ({ d.view home p with
    units, managers := rest.1, operations := rest.2 } : World)) units
      (congrArg₂ Prod.mk managers operations)

namespace Proper

theorem orderly (h : d.Proper managers) : d.world.Orderly := by
  obtain ⟨past, eq⟩ := h.run
  rw [eq]
  exact World.orderly_run managers past

theorem contained (h : d.Proper managers) (empty : NoneKept managers) : d.world.Contained := by
  obtain ⟨past, eq⟩ := h.run
  rw [eq]
  exact World.contained_run empty past

theorem run_perform (h : d.Proper managers) (a : World.Action) :
    ∃ past, d.world.perform a = (World.initial managers).run past := by
  obtain ⟨past, eq⟩ := h.run
  exact ⟨past ++ [a], by rw [World.run_append, eq]; rfl⟩

theorem contained_perform (h : d.Proper managers) (empty : NoneKept managers)
    (a : World.Action) : (d.world.perform a).Contained := by
  obtain ⟨past, eq⟩ := h.run_perform a
  rw [eq]
  exact World.contained_run empty past

/-- What is done in the view of a share is done in the world. -/
theorem mirrors (h : d.Proper managers) (empty : NoneKept managers)
    (here : a.isLocal (d.view home p) = true)
    (awake : ((d.view home p).perform a).isAwake = true) :
    World.Mirrors ((d.shares p).naming home d.world) d.world ((d.view home p).perform a)
      (d.world.perform (a.rename ((d.shares p).naming home d.world))) :=
  ((h.fits p).mirrors_view home (h.contained empty)).perform here awake

/-- What is done on one share is done in its view as if it were alone, and leaves the others as they
are. -/
theorem perform (h : d.Proper managers) (empty : NoneKept managers)
    (here : a.isLocal (d.view home p) = true)
    (awake : ((d.view home p).perform a).isAwake = true) :
    Touches managers home p ((d.view home p).perform a) d
      (d.perform p (a.rename ((d.shares p).naming home d.world))) := by
  let d' := d.perform p (a.rename ((d.shares p).naming home d.world))
  change Touches managers home p _ d d'
  have mirrors := h.mirrors empty here awake
  have grows : d.world.Grows d'.world := World.grows_perform h.orderly _
  have contained : d'.world.Contained := h.contained_perform empty _
  have alone : (d.shares p).Alone d.world d'.world := Share.alone_of_mirrors mirrors grows
  have grown : ((d.shares p).grow d.world d'.world).Fits d'.world :=
    (h.fits p).grow mirrors grows contained
  have here : d'.shares p = (d.shares p).grow d.world d'.world := Function.update_self ..
  have others {q : Nat} (ne : q ≠ p) : d'.shares q = d.shares q :=
    Function.update_of_ne ne ..
  have apart {q : Nat} (ne : q ≠ p) :
      ((d.shares p).grow d.world d'.world).Apart (d.shares q) :=
    (h.apart ne.symm).grow (h.fits q)
  refine ⟨⟨h.run_perform _, fun q => ?_, fun {q r} ne => ?_⟩, ?_, grows,
    ⟨(d.shares p).thread, here⟩, fun ne => ⟨others ne, ?_⟩, alone⟩
  · by_cases same : q = p
    · subst same
      rw [here]
      exact grown
    · rw [others same]
      exact (h.fits q).beside alone grows grown (apart same)
  · by_cases same : q = p
    · subst same
      rw [here, others ne.symm]
      exact apart ne.symm
    · rw [others same]
      by_cases same' : r = p
      · subst same'
        rw [here]
        exact (apart same).symm
      · rw [others same']
        exact h.apart ne
  · rw [view, here]
    exact (h.fits p).view_grow mirrors grows contained
  · rw [view, others ne]
    exact alone.view_eq grows (apart ne) (h.fits _)

/-- Who works on a share does not matter to it. -/
theorem handTo (h : d.Proper managers) (p thread : Nat) : (d.handTo p thread).Proper managers := by
  have same (q : Nat) : ∃ thread', (d.handTo p thread).shares q =
      { d.shares q with thread := thread' } := by
    by_cases eq : q = p
    · subst eq
      exact ⟨thread, Function.update_self ..⟩
    · exact ⟨(d.shares q).thread, Function.update_of_ne eq ..⟩
  refine ⟨h.run, fun q => ?_, fun {q r} ne => ?_⟩
  · obtain ⟨thread', eq⟩ := same q
    rw [eq]
    exact { h.fits q with }
  · obtain ⟨thread', eq⟩ := same q
    obtain ⟨thread'', eq'⟩ := same r
    rw [eq, eq']
    exact { h.apart ne with }

/-- A commit is begun on a share as it would be begun if the tree were alone. -/
theorem begin (h : d.Proper managers) (empty : NoneKept managers) {i : Nat}
    (there : (d.shares p).units[i]? = some u)
    (same : (d.handTo p thread).view home p = d.view home p)
    (awake : ((d.view home p).perform (.commit i home)).isAwake = true) :
    Touches managers home p ((d.view home p).perform (.commit i home)) d
      (d.begin p u thread) := by
  have handed : (d.handTo p thread).shares p = { d.shares p with thread } :=
    Function.update_self ..
  have named : ((World.Action.commit i home).rename
      (((d.handTo p thread).shares p).naming home (d.handTo p thread).world)) =
        .commit u thread := by
    have unit : nameIn (d.shares p).units d.world.units.length i = u :=
      nameIn_of_getElem? there
    rw [handed]
    exact congrArg₂ World.Action.commit unit (Equiv.swap_apply_left home thread)
  rw [← same] at awake ⊢
  have touches := (h.handTo p thread).perform (p := p) (a := .commit i home) empty rfl awake
  rw [named] at touches
  have alone := touches.alone
  rw [handed] at alone
  refine ⟨touches.proper, touches.view, touches.grows, ?_, fun ne => ?_, { alone with }⟩
  · obtain ⟨thread', grown⟩ := touches.grown
    exact ⟨thread', by rw [Division.begin, grown, handed]; rfl⟩
  · obtain ⟨shares, view⟩ := touches.others ne
    exact ⟨shares.trans (Function.update_of_ne ne ..),
      view.trans (view_handTo_ne d home thread ne)⟩

/-- The passing of time is seen in no share. -/
theorem tick (h : d.Proper managers) (nanos : Nat) : (d.tick nanos).Proper managers :=
  ⟨h.run_perform (.tick nanos), fun p => { h.fits p with }, h.apart⟩

end Proper

namespace Touches

variable {l : World}

/-- Every share has after something was done what it had before. -/
theorem growth (h : Touches managers home p l d d') : d.Growth d' := by
  refine ⟨h.grows, fun q => ?_, fun q => ?_, fun q => ?_⟩ <;> by_cases same : q = p
  all_goals first
    | subst same
      obtain ⟨thread, grown⟩ := h.grown
      rw [grown]
      exact .grow ..
    | rw [(h.others same).1]
      exact .refl ..

/-- What is in no share is left as it is. -/
theorem spares (h : Touches managers home p l d d') (spares : d.Spares w) : d'.Spares w := by
  have growth := h.growth
  obtain ⟨thread, grown⟩ := h.grown
  constructor
  · intro u away
    rw [h.alone.units u (by simpa [grown] using away p)]
    exact spares.units u fun q mem => away q ((growth.units q).start.subset mem)
  · intro n away
    rw [h.alone.transactions n (by simpa [grown] using away p)]
    exact spares.transactions n fun q mem => away q ((growth.transactions q).start.subset mem)
  · intro c away
    rw [h.alone.operations c (by simpa [grown] using away p)]
    exact spares.operations c fun q mem => away q ((growth.operations q).start.subset mem)

end Touches

namespace Growth

variable {d'' : Division}

theorem refl (d : Division) : d.Growth d :=
  ⟨.refl _, fun _ => .refl _ _, fun _ => .refl _ _, fun _ => .refl _ _⟩

theorem trans (h : d.Growth d') (h' : d'.Growth d'') : d.Growth d'' where
  grows := h.grows.trans h'.grows
  units := fun p => (h.units p).trans (h'.units p) h.grows.units
  transactions := fun p => (h.transactions p).trans (h'.transactions p) h.grows.transactions
  operations := fun p => (h.operations p).trans (h'.operations p) h.grows.operations

/-- Time passes without any growth. -/
theorem tick (h : d.Growth d') (nanos : Nat) : d.Growth (d'.tick nanos) :=
  ⟨⟨h.grows.units, h.grows.transactions, h.grows.operations⟩, h.units, h.transactions,
    h.operations⟩

end Growth

theorem Spares.tick (h : d.Spares w) (nanos : Nat) : (d.tick nanos).Spares w :=
  ⟨h.units, h.transactions, h.operations⟩

end Division

end NestedWork
