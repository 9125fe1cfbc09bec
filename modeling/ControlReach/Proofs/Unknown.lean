import ControlReach.Proofs.Observation

/-!
# The unknowns of a query

An unknown of a query stands for a leaf of what a `havoc` stores or of a joined value, for the
choice of an edge or of a label, or for an observed key.
-/

namespace ControlReach

open List

/-- What an unknown stands for. -/
inductive Origin where
  /-- A leaf of the value that the operation at a position of a block stores. -/
  | havoc (block : BlockId) (position : Nat) (path : List String)
  /-- A leaf of the joined value of a variable. -/
  | joined (block : BlockId) (uid : Nat) (path : List String)
  /-- The choice of an edge into a block. -/
  | edge (block : BlockId) (index : Nat)
  /-- The choice of the label at a position of a site. -/
  | guard (site index : Nat)
  | observed (key : String)
  deriving DecidableEq

/-- The block that an unknown belongs to. -/
def Origin.block? : Origin → Option BlockId
  | .havoc i _ _ | .joined i _ _ | .edge i _ => some i
  | .guard _ _ | .observed _ => none

/-- An unknown: what it stands for, and its symbol. -/
structure Unknown where
  origin : Origin
  symbol : Symbol

/-! ### The unknowns of values -/

mutual

def Ty.unknowns (name : String) (path : List String) : Ty → List (List String × Symbol)
  | .bool => [(path, ⟨name, .bool⟩)]
  | .string => [(path, ⟨name, .string⟩)]
  | .struct _ fields => Ty.unknownsOf name path fields

def Ty.unknownsOf (name : String) (path : List String) :
    List (String × Ty) → List (List String × Symbol)
  | [] => []
  | (f, ty) :: rest =>
    Ty.unknowns (name ++ "." ++ f) (path ++ [f]) ty ++ Ty.unknownsOf name path rest

end

mutual

def mergeUnknowns (name : String) (path : List String) (first : SymValue) (others : List SymValue) :
    List (List String × Symbol) :=
  if others.all fun v => first = v then []
  else
    match first with
    | .struct fields => mergeUnknownsOf name path fields others
    | .term t => [(path, ⟨name, t.sort⟩)]

def mergeUnknownsOf (name : String) (path : List String) (fields : List (String × SymValue))
    (others : List SymValue) : List (List String × Symbol) :=
  match fields with
  | [] => []
  | (f, v) :: rest =>
    (match others.mapM (·.get f) with
      | .ok values => mergeUnknowns (name ++ "." ++ f) (path ++ [f]) v values
      | .error _ => []) ++ mergeUnknownsOf name path rest others

end

def storeUnknowns (block : BlockId) (others : List Store) : Store → List Unknown
  | [] => []
  | (uid, v, w) :: rest =>
    (match others.mapM (·.value? v) with
      | some values =>
        (mergeUnknowns (v.display ++ "@join" ++ toString block) [] w values).map fun p =>
          ⟨.joined block uid p.1, p.2⟩
      | none => []) ++ storeUnknowns block others rest

def edgeUnknown (block : BlockId) (i : Nat) : Unknown :=
  ⟨.edge block i, ⟨"edge@" ++ toString block ++ "." ++ toString i, .bool⟩⟩

def joinUnknowns (block : BlockId) : List Arrival → List Unknown
  | [] => []
  | [_] => []
  | first :: others =>
    (List.range (first :: others).length).map (edgeUnknown block) ++
      storeUnknowns block (others.map Arrival.store) first.store

def havocUnknowns (block : BlockId) (ops : List Op) : List Unknown :=
  ops.zipIdx.flatMap fun p =>
    match p.1 with
    | .havoc x n _ => (x.ty.unknowns (freshName x n) []).map fun q => ⟨.havoc block p.2 q.1, q.2⟩
    | _ => []

/-! ### The unknowns of a query -/

namespace FlowGraph

variable (g : FlowGraph)

def guardUnknown (guard : Nat × String × String) : Unknown :=
  let labels := ((g.site? guard.1).map TableSite.labels).getD []
  ⟨.guard guard.1 (labels.idxOf guard.2.1), ⟨guard.2.2, .bool⟩⟩

def guardsRead (target : Target) (relevant : List BlockId) (i : BlockId) :
    List (Nat × String × String) :=
  (g.opsOf i).flatMap Op.guards ++
    if i = target.block then []
    else ((g.edgesOf i).filter fun e => e.target ∈ relevant).flatMap fun e =>
      (e.guard.map Rvalue.guards).getD []

/-- The unknowns that come with a visit to a block. -/
def unknownsAt (target : Target) (relevant : List BlockId) (i : BlockId)
    (p : Progress) : List Unknown :=
  match g.pass i p with
  | .ok (some _) => joinUnknowns i (p.arrivals i) ++ havocUnknowns i (g.opsOf i) ++
      (g.guardsRead target relevant i).map g.guardUnknown
  | _ => []

def unknownsFrom (g : FlowGraph) (target : Target) (relevant : List BlockId) :
    List BlockId → Progress → List Unknown
  | [], _ => []
  | i :: rest, p => g.unknownsAt target relevant i p ++
      match visitBlock g target relevant i p with
      | .ok (.inr p') => unknownsFrom g target relevant rest p'
      | _ => []

def siteUnknowns (s : TableSite) : List Unknown :=
  s.labels.zipIdx.map fun p => ⟨.guard s.id p.2, ⟨s.guardName p.1, .bool⟩⟩

def unknowns (target : Target) (q : Query) : List Unknown :=
  let relevant := g.reaching target.block
  g.unknownsFrom target relevant (g.topological relevant) g.start ++
    (g.sitesIn relevant).flatMap siteUnknowns ++
    q.observations.map fun p => ⟨.observed p.1, p.2⟩

end FlowGraph

/-- Unknowns that stand for different things have different symbols. -/
def Unknown.Distinct (l : List Unknown) : Prop :=
  ∀ a ∈ l, ∀ b ∈ l, a.symbol = b.symbol → a.origin = b.origin

/-! ### The blocks of unknowns -/

variable {a : Unknown}

theorem block?_storeUnknowns :
    ∀ a ∈ storeUnknowns block others s, a.origin.block? = some block := by
  induction s with
  | nil => exact forall_mem_nil _
  | cons q rest ih =>
    obtain ⟨uid, v, w⟩ := q
    refine forall_mem_append.2 ⟨?_, ih⟩
    split
    · exact forall_mem_map.2 fun _ _ => rfl
    · exact forall_mem_nil _

theorem block?_joinUnknowns : ∀ a ∈ joinUnknowns block arrivals, a.origin.block? = some block := by
  fun_cases joinUnknowns block arrivals with
  | case1 | case2 => exact forall_mem_nil _
  | case3 first others =>
    exact forall_mem_append.2 ⟨forall_mem_map.2 fun _ _ => rfl, block?_storeUnknowns⟩

theorem block?_havocUnknowns : ∀ a ∈ havocUnknowns block ops, a.origin.block? = some block := by
  refine forall_mem_flatMap.2 fun q _ => ?_
  obtain ⟨op, k⟩ := q
  cases op with
  | havoc => exact forall_mem_map.2 fun _ _ => rfl
  | assign | assume => exact forall_mem_nil _

namespace FlowGraph

variable {g : FlowGraph}

theorem block?_unknownsAt :
    ∀ a ∈ g.unknownsAt target relevant i p, ∀ j, a.origin.block? = some j → j = i := by
  rw [unknownsAt]
  split
  · refine forall_mem_append.2 ⟨forall_mem_append.2 ⟨fun a ha j hj => ?_, fun a ha j hj => ?_⟩,
      forall_mem_map.2 nofun⟩
    · exact Option.some.inj (hj.symm.trans (block?_joinUnknowns a ha))
    · exact Option.some.inj (hj.symm.trans (block?_havocUnknowns a ha))
  · exact forall_mem_nil _

theorem block?_unknownsFrom (h : a ∈ g.unknownsFrom target relevant order p)
    (hj : a.origin.block? = some j) : j ∈ order := by
  induction order generalizing p with
  | nil => cases h
  | cons i rest ih =>
    rcases mem_append.1 h with h | h
    · exact mem_cons.2 (.inl (block?_unknownsAt a h j hj))
    · split at h
      · exact mem_cons_of_mem _ (ih h)
      · cases h

end FlowGraph

/-! ### Values are determined by their unknowns -/

namespace Datum

def at? (d : Datum) : List String → Option Datum
  | [] => some d
  | f :: path => (d.get? f).bind fun inner => inner.at? path

theorem at?_append (d : Datum) (path : List String) (f : String) :
    d.at? (path ++ [f]) = (d.at? path).bind fun inner => inner.get? f := by
  induction path generalizing d with
  | nil => cases h : d.get? f <;> simp [at?, h]
  | cons f' path ih =>
    cases h : d.get? f' with
    | none => simp [at?, h]
    | some inner => simp [at?, h, ih]

def sort? : Datum → Option Sorts
  | .bool _ => some .bool
  | .text _ => some .string
  | .struct _ => none

end Datum

theorem Term.sort?_datum (t : Term) (v : Valuation String) : (t.datum v).sort? = some t.sort := by
  cases h : t.sort with
  | bool => rw [datum_of_bool h]; rfl
  | string => rw [datum_of_string h]; rfl

def Valuation.Fits (v : Valuation String) (l : List (List String × Symbol)) (d : Datum) : Prop :=
  ∀ p ∈ l, ∀ leaf, d.at? p.1 = some leaf → leaf.sort? = some p.2.sort →
    (Term.symbol p.2).datum v = leaf

namespace SymValue

mutual

theorem datum_fresh : ∀ ty name path d, ty.Distinct →
    d.HasType ty → root.at? path = some d → v.Fits (ty.unknowns name path) root →
    (fresh name ty).datum v = d
  | .bool, name, path, .bool b, _, _, hat, hfit
  | .string, name, path, .text s, _, _, hat, hfit => hfit _ mem_cons_self _ hat rfl
  | .struct _ tys, name, path, .struct ds, hd, hty, hat, hfit => by
    have hkeys : ds.map Prod.fst = tys.map Prod.fst := Assoc.keys_eq (Datum.haveTypes_iff.1 hty)
    have hget : ∀ q ∈ ds, (Datum.struct ds).get? q.1 = some q.2 := fun q hq =>
      Assoc.lookup_of_mem (by rw [hkeys]; exact hd.1) hq
    rw [fresh, datum, data_freshFields tys name path _ ds hd.2 hty hat hget hfit]
  | .bool, _, _, .text _, _, h, _, _ | .bool, _, _, .struct _, _, h, _, _
  | .string, _, _, .bool _, _, h, _, _ | .string, _, _, .struct _, _, h, _, _
  | .struct _ _, _, _, .bool _, _, h, _, _ | .struct _ _, _, _, .text _, _, h, _, _ => h.elim

theorem data_freshFields : ∀ tys name path d ds, Ty.DistinctFields tys → Datum.HaveTypes ds tys →
    root.at? path = some d → (∀ q ∈ ds, d.get? q.1 = some q.2) →
    v.Fits (Ty.unknownsOf name path tys) root → data v (freshFields name tys) = ds
  | [], _, _, _, [], _, _, _, _, _ => rfl
  | (_, ty) :: tys, name, path, d, (f, x) :: ds, hd, hty, hat, hget, hfit => by
    obtain ⟨rfl, hx, hds⟩ := hty
    obtain ⟨hf, hget⟩ := forall_mem_cons.1 hget
    obtain ⟨hhere, hthere⟩ := forall_mem_append.1 hfit
    have hat' : root.at? (path ++ [f]) = some x := by
      rw [Datum.at?_append, hat]
      exact hf
    rw [freshFields, data, datum_fresh ty _ _ x hd.1 hx hat' hhere,
      data_freshFields tys name path d ds hd.2 hds hat hget hthere]
  | [], _, _, _, _ :: _, _, h, _, _, _ | _ :: _, _, _, _, [], _, h, _, _, _ => h.elim

end

end SymValue

/-- Values for what unknowns stand for. -/
abbrev Assignment := Origin → Option Datum

/-- A valuation gives unknowns the values of what they stand for, as far as those are known. -/
def Valuation.Agrees (v : Valuation String) (m : Assignment) (l : List Unknown) : Prop :=
  ∀ a ∈ l, ∀ leaf, m a.origin = some leaf → leaf.sort? = some a.symbol.sort →
    (Term.symbol a.symbol).datum v = leaf

theorem Valuation.Agrees.mono {v : Valuation String} (h : v.Agrees m l) (hsub : ∀ a ∈ l', a ∈ l) :
    v.Agrees m l' :=
  fun a ha => h a (hsub a ha)

end ControlReach
