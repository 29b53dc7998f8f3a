import FuseFat32.Fuse.Serve

/-!
# Objects of a volume that a handler holds

The files of a volume are read from the map and from the entries together, whatever the handler holds. What is shown of the other files stays when one of the objects held is worked on.
-/

namespace FuseFat32

open LinkedTable Layout WriteBack

section driver

variable {cs : Charset} {t : Tree} {s s' : Driver} {σ : Nat → File} {held : List File} {others : List Nat}
  {f f' g g' : File} {k : Nat} {fs' : FAT32fs}

/-- The map, the entries and the objects that are held have the objects `σ` of the volume. -/
abbrev Driver.Holds (cs : Charset) (t : Tree) (s : Driver) (σ : Nat → File) (held : List File) (others : List Nat) : Prop :=
  s.HoldsBy (t.reading cs) t.inos σ held others

theorem Driver.HoldsBy.volume (h : s.Holds cs t σ held others) : t.Volume cs s.fs σ := h.coherent.good

theorem Driver.HoldsBy.reshaped {t' : Tree} {σ' : Nat → File} (h : s.Holds cs t σ (g :: held) others) (hinos : t'.inos = t.inos)
    (hv : t'.Volume cs fs' σ') (hσ : ∀ j ≠ g.ino, σ' j = σ j) (hino : g'.ino = g.ino) (hself : (σ' g.ino).MayCache fs' g')
    (hmade : ∀ j ∈ t.inos, j ≠ g.ino → File.fromIno cs s.fs j = some (some (σ j)) → File.fromIno cs fs' j = some (some (σ j)))
    (hothers : ∀ j ∈ t.inos, j ≠ g.ino → ∀ a, (σ j).MayCache s.fs a → (σ j).MayCache fs' a) :
    Driver.Holds cs t' ⟨fs', s.files⟩ σ' (g' :: held) others := by
  have hc : Driver.HoldsBy (t'.reading cs) t.inos ⟨fs', s.files⟩ σ' (g' :: held) others :=
    Driver.HoldsBy.recast h hv hσ hino hself hmade hothers
  rwa [← hinos] at hc

theorem Driver.HoldsBy.update (h : s.Holds cs t σ (g :: held) others) (hserved : t.Served cs s.fs σ g.ino fs' f' g') :
    Driver.Holds cs t ⟨fs', s.files⟩ (Function.update σ g.ino f') (g' :: held) others :=
  h.reshaped rfl hserved.volume (fun _ hj => Function.update_of_ne hj ..) (hserved.ino_eq h.shows.1)
    ((Function.update_self g.ino f' σ).symm ▸ hserved.object) hserved.undisturbed.has hserved.undisturbed.shows

end driver

end FuseFat32
