import Phrust.Theory.Texts
import Phrust.Semantics.Resolution
import Phrust.Verify.ClassAncestry

/-!
# Names resolve as in PHP, except behind function and constant contexts

`phpResolve` states PHP's rules over the imports in the order of the source; `phpIdentity` is what PHP
compares of a name. The resolver follows the rules for every name unless the first segment of a qualified
name is looked up in another table than that of classes and namespaces.
-/

namespace Phrust
open List NameResolver

/-! ## The import table -/

namespace ImportTable

def declares (kind : ImportKind) (canonical : PhpString) (entry : ImportEntry) : Bool :=
  entry.kind == kind && entry.aliasCanonical == canonical

/-- The maps lead to the first entry of their kind with the alias. -/
def Indexed (table : ImportTable) : Prop :=
  ∀ kind canonical, (table.aliases kind).lookup canonical = table.entries.findIdx? (declares kind canonical)

theorem indexed_empty : Indexed {} := by
  intro kind canonical
  cases kind <;> rfl

theorem aliases_setAliases (table : ImportTable) (aliases : List (PhpString × Nat)) (kind other : ImportKind) :
    (table.setAliases aliases kind).aliases other = if other = kind then aliases else table.aliases other := by
  cases kind <;> cases other <;> rfl

theorem Indexed.insert {table table' : ImportTable} (h : table.Indexed)
    (hinsert : table.insert entry = .ok table') : table'.Indexed := by
  rw [ImportTable.insert] at hinsert
  split at hinsert
  · cases hinsert
  · next hfree =>
    cases hinsert
    intro kind canonical
    have haliases : ({ table.setAliases ((entry.aliasCanonical, table.entries.length) :: table.aliases entry.kind)
        entry.kind with entries := table.entries ++ [entry] } : ImportTable).aliases kind =
        (table.setAliases ((entry.aliasCanonical, table.entries.length) :: table.aliases entry.kind)
          entry.kind).aliases kind := by
      cases kind <;> rfl
    simp only [haliases, aliases_setAliases, findIdx?_append, ← h kind canonical]
    by_cases hkind : kind = entry.kind
    · subst hkind
      rw [if_pos rfl, lookup_cons]
      by_cases hcanonical : canonical = entry.aliasCanonical
      · subst hcanonical
        rw [hfree]
        simp [declares]
      have hne : (canonical == entry.aliasCanonical) = false := beq_eq_false_iff_ne.mpr hcanonical
      have hnone : [entry].findIdx? (declares entry.kind canonical) = none := by
        simp [declares, Ne.symm hcanonical]
      rw [hne, hnone]
      simp
    · have hnone : [entry].findIdx? (declares kind canonical) = none := by
        simp [declares, Ne.symm hkind]
      rw [if_neg hkind, hnone]
      simp

theorem Indexed.insertAll {table : ImportTable} (h : table.Indexed) (entries : List ImportEntry) :
    (table.insertAll entries).Indexed := by
  induction entries generalizing table with
  | nil => exact h
  | cons entry entries ih =>
    rw [ImportTable.insertAll, foldl_cons]
    cases hinsert : table.insert entry with
    | ok table' => exact ih (h.insert hinsert)
    | error => exact ih h

/-- Of the imports under one alias the first one is kept. -/
theorem find?_insertAll {table : ImportTable} (h : table.Indexed) (imports : List ImportEntry) (kind : ImportKind)
    (canonical : PhpString) : (table.insertAll imports).entries.find? (declares kind canonical) =
      (table.entries ++ imports).find? (declares kind canonical) := by
  induction imports generalizing table with
  | nil => rw [append_nil]; rfl
  | cons entry imports ih =>
    rw [ImportTable.insertAll, foldl_cons]
    cases hinsert : table.insert entry with
    | ok table' =>
      refine (ih (h.insert hinsert)).trans ?_
      rw [ImportTable.insert] at hinsert
      split at hinsert
      · cases hinsert
      · cases hinsert
        rw [append_assoc]
        rfl
    | error =>
      refine (ih h).trans ?_
      rw [find?_append, find?_append, find?_cons]
      cases hdeclares : declares kind canonical entry with
      | false => rfl
      | true =>
        -- An earlier import has the alias already.
        simp only [declares, Bool.and_eq_true, beq_iff_eq] at hdeclares
        obtain ⟨rfl, rfl⟩ := hdeclares
        rw [ImportTable.insert, h] at hinsert
        split at hinsert
        · next index hindex =>
          obtain ⟨hlt, hentry, -⟩ := findIdx?_eq_some_iff_getElem.mp hindex
          obtain ⟨found, hfound⟩ := Option.isSome_iff_exists.mp (find?_isSome.mpr ⟨_, getElem_mem hlt, hentry⟩)
          rw [hfound]
          rfl
        · cases hinsert

end ImportTable

/-! ## PHP's rules -/

/-- Aliases that PHP does not tell apart. -/
def sameAlias : ImportKind → PhpString → PhpString → Bool
  | .const, left, right => left == right
  | .classLike, left, right | .function, left, right => lowercase left == lowercase right

theorem sameAlias_eq (kind : ImportKind) (entry : ImportEntry) (hkind : entry.kind = kind) (text : PhpString) :
    (entry.aliasCanonical == kind.canonicalAlias text) = sameAlias kind entry.aliasText text := by
  rw [entry.canonical, hkind]
  cases kind <;> rfl

namespace NameResolver
section
variable (currentNamespace : Option PhpString) (imports : List ImportEntry)

/-- The first import of a kind whose alias is the segment. -/
def phpImport (kind : ImportKind) (part : NamePart) : Option ImportEntry :=
  imports.find? fun entry => entry.kind == kind && sameAlias kind entry.aliasText part.original

def phpNamespace : List NamePart :=
  match currentNamespace with
  | some text => (QualifiedName.parse text).parts
  | none => []

/-- What the first segment of a qualified name stands for. -/
def phpHead (first : NamePart) : List NamePart :=
  match phpImport imports .classLike first with
  | some entry => entry.name.parts
  | none => phpNamespace currentNamespace ++ [first]

def phpUnqualified (kind : ImportKind) (part : NamePart) (otherwise : ResolvedName) : ResolvedName :=
  match phpImport imports kind part with
  | some entry => .fullyQualified entry.name
  | none => otherwise

/-- Outside of a namespace there is nothing to fall back from. -/
def phpFallback (part : NamePart) : ResolvedName :=
  match currentNamespace with
  | some _ => .maybeRuntimeFallback ⟨phpNamespace currentNamespace ++ [part]⟩ ⟨[part]⟩
  | none => .fullyQualified ⟨[part]⟩

def phpResolve (name : QualifiedName) (context : ResolveContext) : ResolvedName :=
  match name.parts with
  | [] => .dynamic
  | first :: rest =>
    if name.leadingSlash then .fullyQualified ⟨first :: rest⟩
    else if name.namespaceRelative then .fullyQualified ⟨phpNamespace currentNamespace ++ first :: rest⟩
    else
      match rest with
      | _ :: _ => .fullyQualified ⟨phpHead currentNamespace imports first ++ rest⟩
      | [] =>
        match context with
        | .functionCall => phpUnqualified imports .function first (phpFallback currentNamespace first)
        | .constantFetch => phpUnqualified imports .const first (phpFallback currentNamespace first)
        | .classLike | .attributeClass | .typeName =>
          phpUnqualified imports .classLike first (.fullyQualified ⟨phpNamespace currentNamespace ++ [first]⟩)
        | .namespaceName => .fullyQualified ⟨phpNamespace currentNamespace ++ [first]⟩

/-- An import of functions or constants, if there is one, leads where the import of classes does. -/
def SameHead (first : NamePart) (own ofClasses : Option ImportEntry) : Prop :=
  match own, ofClasses with
  | none, none => phpNamespace currentNamespace = []
  | none, some entry => entry.name.parts = [first]
  | some entry, none => entry.name.parts = phpNamespace currentNamespace ++ [first]
  | some entry, some other => entry.name.parts = other.name.parts

/-- For the first segment of a qualified name the context makes no difference. -/
def HeadAgrees (first : NamePart) : ResolveContext → Prop
  | .classLike | .attributeClass | .typeName => True
  | .namespaceName =>
    ∀ entry ∈ phpImport imports .classLike first, entry.name.parts = phpNamespace currentNamespace ++ [first]
  | .functionCall =>
    SameHead currentNamespace first (phpImport imports .function first) (phpImport imports .classLike first)
  | .constantFetch =>
    SameHead currentNamespace first (phpImport imports .const first) (phpImport imports .classLike first)

def FollowsPhp (name : QualifiedName) (context : ResolveContext) : Prop :=
  name.leadingSlash = false → name.namespaceRelative = false →
    ∀ first second rest, name.parts = first :: second :: rest → HeadAgrees currentNamespace imports first context

/-! ## The resolver -/

/-- The resolver of a namespace block, after its imports have been collected. -/
def ofImports : NameResolver := ⟨currentNamespace, ({} : ImportTable).insertAll imports⟩

theorem lookup_ofImports (kind : ImportKind) (part : NamePart) :
    (ofImports currentNamespace imports).imports.lookup kind part.original = phpImport imports kind part := by
  have hsame : ImportTable.declares kind (kind.canonicalAlias part.original) =
      fun entry => entry.kind == kind && sameAlias kind entry.aliasText part.original := by
    funext entry
    rw [ImportTable.declares]
    by_cases hkind : entry.kind = kind
    · rw [sameAlias_eq kind entry hkind]
    · rw [beq_eq_false_iff_ne.mpr hkind]
      rfl
  have hindexed := ImportTable.indexed_empty.insertAll imports kind (kind.canonicalAlias part.original)
  have hfind := ImportTable.find?_insertAll ImportTable.indexed_empty imports kind (kind.canonicalAlias part.original)
  rw [find?_eq_bind_findIdx?_getElem?, ← hindexed] at hfind
  rw [phpImport, ← hsame]
  exact hfind

theorem namespaceParts_ofImports :
    (ofImports currentNamespace imports).namespaceParts = phpNamespace currentNamespace := by
  cases currentNamespace <;> rfl

variable (name : QualifiedName) (context : ResolveContext)

theorem resolve_qualified_iff (hslash : name.leadingSlash = false) (hrelative : name.namespaceRelative = false)
    (hparts : name.parts = first :: second :: rest) :
    (ofImports currentNamespace imports).resolve name context =
        .fullyQualified ⟨phpHead currentNamespace imports first ++ second :: rest⟩ ↔
      HeadAgrees currentNamespace imports first context := by
  rw [resolve, hparts, hslash, hrelative]
  simp only [Bool.false_eq_true, if_false, lookup_ofImports, withCurrentNamespace, namespaceParts_ofImports, phpHead]
  have hcancel (head head' : List NamePart) : (ResolvedName.fullyQualified ⟨head ++ second :: rest⟩ =
      .fullyQualified ⟨head' ++ second :: rest⟩) ↔ head = head' := by simp
  have hown := hcancel [first]
  have hprefixed := hcancel (phpNamespace currentNamespace ++ [first])
  rw [singleton_append] at hown
  rw [append_assoc, singleton_append] at hprefixed
  cases context with
  | classLike | attributeClass | typeName =>
    simp only [ResolveContext.importKind, Option.bind_some, HeadAgrees, iff_true]
    cases phpImport imports .classLike first with
    | none => rw [hprefixed]
    | some entry => rfl
  | namespaceName =>
    simp only [ResolveContext.importKind, Option.bind_none, HeadAgrees, hprefixed]
    cases phpImport imports .classLike first <;> simp [eq_comm]
  | functionCall | constantFetch =>
    simp only [ResolveContext.importKind, Option.bind_some, HeadAgrees, reduceCtorEq, false_and, if_false]
    generalize phpImport imports .classLike first = ofClasses
    generalize phpImport imports _ first = own
    cases own with
    | none =>
      simp only [hown]
      cases ofClasses with
      | none => simp [SameHead]
      | some other => exact eq_comm
    | some entry => cases ofClasses <;> exact hcancel _ _

theorem resolve_unqualified (hslash : name.leadingSlash = false) (hrelative : name.namespaceRelative = false)
    (hparts : name.parts = [first]) : (ofImports currentNamespace imports).resolve name context =
      phpResolve currentNamespace imports name context := by
  rw [resolve, phpResolve, hparts, hslash, hrelative]
  simp only [Bool.false_eq_true, if_false, lookup_ofImports, withCurrentNamespace, namespaceParts_ofImports]
  have himport (kind : ImportKind) (otherwise : ResolvedName) :
      (match (some kind).bind fun kind => phpImport imports kind first with
        | some entry => ResolvedName.fullyQualified ⟨entry.name.parts ++ []⟩
        | none => otherwise) = phpUnqualified imports kind first otherwise := by
    rw [Option.bind_some, phpUnqualified]
    cases phpImport imports kind first with
    | some entry => simp only [append_nil]
    | none => rfl
  cases context with
  | functionCall | constantFetch =>
    refine (himport _ _).trans ?_
    rw [ofImports]
    cases currentNamespace <;> simp [phpFallback]
  | classLike | attributeClass | typeName => exact himport _ _
  | namespaceName => rfl

theorem resolve_eq_iff :
    (ofImports currentNamespace imports).resolve name context = phpResolve currentNamespace imports name context ↔
      FollowsPhp currentNamespace imports name context := by
  by_cases hslash : name.leadingSlash = false
  · by_cases hrelative : name.namespaceRelative = false
    · cases hparts : name.parts with
      | nil =>
        rw [resolve, phpResolve, hparts]
        refine iff_of_true rfl fun _ _ first second rest hcons => ?_
        cases hparts.symm.trans hcons
      | cons first rest =>
        cases rest with
        | nil =>
          refine iff_of_true (resolve_unqualified currentNamespace imports name context hslash hrelative hparts)
            fun _ _ _ _ _ hcons => ?_
          cases hparts.symm.trans hcons
        | cons second rest =>
          have hphp : phpResolve currentNamespace imports name context =
              .fullyQualified ⟨phpHead currentNamespace imports first ++ second :: rest⟩ := by
            rw [phpResolve, hparts, hslash, hrelative]
            rfl
          rw [hphp, resolve_qualified_iff currentNamespace imports name context hslash hrelative hparts]
          refine ⟨fun hagrees _ _ _ _ _ hcons => ?_, fun hfollows => hfollows hslash hrelative _ _ _ hparts⟩
          cases hparts.symm.trans hcons
          exact hagrees
    · refine iff_of_true ?_ fun _ hfalse => absurd hfalse hrelative
      rw [resolve, phpResolve, hslash, eq_true_of_ne_false hrelative, ← namespaceParts_ofImports _ imports]
      cases name.parts <;> rfl
  · refine iff_of_true ?_ fun hfalse => absurd hfalse hslash
    rw [resolve, phpResolve, eq_true_of_ne_false hslash]
    cases name.parts <;> rfl

end
end NameResolver

/-! ## Segments -/

/-- A segment is not empty and holds no separator. -/
def NamePart.IsSegment (part : NamePart) : Prop := part.original ≠ [] ∧ 92 ∉ part.original

def FullyQualifiedName.Segmented (name : FullyQualifiedName) : Prop := ∀ part ∈ name.parts, part.IsSegment

theorem parse_segments (text : PhpString) : ∀ part ∈ (QualifiedName.parse text).parts, part.IsSegment := by
  have hraw (text piece : PhpString) (h : piece ∈ QualifiedName.rawParts text) : (NamePart.new piece).IsSegment := by
    obtain ⟨hmem, hne⟩ := mem_filter.mp h
    exact ⟨of_decide_eq_true hne, Texts.not_mem_of_mem_splitOn hmem⟩
  intro part hpart
  obtain ⟨piece, hpiece, rfl⟩ := mem_map.mp hpart
  split at hpiece
  · exact hraw _ _ (mem_of_mem_tail hpiece)
  · exact hraw _ _ hpiece

namespace NameResolver

/-- The names of a result. -/
def resolvedNames : ResolvedName → List FullyQualifiedName
  | .fullyQualified name => [name]
  | .maybeRuntimeFallback namespaced fallback => [namespaced, fallback]
  | .dynamic | .unresolved => []

theorem resolve_segmented (currentNamespace : Option PhpString) {imports : List ImportEntry}
    (himports : ∀ entry ∈ imports, entry.name.Segmented) (text : PhpString) (context : ResolveContext) :
    ∀ name ∈ resolvedNames ((ofImports currentNamespace imports).resolve (.parse text) context),
      name.Segmented := by
  have hparts := parse_segments text
  have hnamespace : ∀ part ∈ (ofImports currentNamespace imports).namespaceParts, part.IsSegment := by
    intro part hpart
    rw [namespaceParts_ofImports] at hpart
    cases currentNamespace with
    | none => cases hpart
    | some current => exact parse_segments current part hpart
  have happend {left right : List NamePart} (hleft : ∀ part ∈ left, part.IsSegment)
      (hright : ∀ part ∈ right, part.IsSegment) : FullyQualifiedName.Segmented ⟨left ++ right⟩ := fun part hpart =>
    (mem_append.mp hpart).elim (hleft part) (hright part)
  have hone {name name' : FullyQualifiedName} (h : name.Segmented) (hmem : name' ∈ [name]) : name'.Segmented :=
    mem_singleton.mp hmem ▸ h
  rw [resolve]
  cases hlist : (QualifiedName.parse text).parts with
  | nil => exact nofun
  | cons first rest =>
    rw [hlist] at hparts
    have hfull : FullyQualifiedName.Segmented ⟨first :: rest⟩ := hparts
    have hprefixed : ((ofImports currentNamespace imports).withCurrentNamespace (first :: rest)).Segmented :=
      happend hnamespace hparts
    intro name hname
    simp only at hname
    split at hname
    · exact hone hfull hname
    split at hname
    · exact hone hprefixed hname
    split at hname
    · next entry hentry =>
      obtain ⟨kind, -, hlookup⟩ := Option.bind_eq_some_iff.mp hentry
      rw [lookup_ofImports] at hlookup
      exact hone (happend (himports entry (mem_of_find?_eq_some hlookup)) (forall_mem_cons.mp hparts).2) hname
    · cases context with
      | functionCall | constantFetch =>
        simp only at hname
        split at hname
        · rcases mem_cons.mp hname with rfl | hname
          · exact hprefixed
          · exact hone hfull hname
        · exact hone hfull hname
      | classLike | attributeClass | typeName | namespaceName => exact hone hprefixed hname

end NameResolver

/-! ## Canonical forms -/

/-- What PHP compares of a name: the last segment of a constant is case sensitive. -/
def phpIdentity (kind : NameKind) (name : FullyQualifiedName) : List PhpString :=
  if kind = .constant then
    (name.parts.dropLast.map NamePart.asciiLowercase) ++ (name.parts.getLast?.map NamePart.original).toList
  else name.parts.map NamePart.asciiLowercase

theorem NamePart.eq_of_original {left right : NamePart} (h : left.original = right.original) : left = right := by
  obtain ⟨original, lower, hlower⟩ := left
  obtain ⟨original', lower', hlower'⟩ := right
  cases h
  cases hlower
  cases hlower'
  rfl

theorem NamePart.IsSegment.canonical {part : NamePart} (h : part.IsSegment) (kind : NameKind) :
    part.canonical kind ≠ [] ∧ 92 ∉ part.canonical kind := by
  rw [NamePart.canonical]
  split
  · rw [part.lowercased, lowercase]
    refine ⟨fun hnil => h.1 (map_eq_nil_iff.mp hnil), fun hmem => ?_⟩
    obtain ⟨byte, hbyte, heq⟩ := mem_map.mp hmem
    exact toAsciiLowercase_ne_backslash (fun hslash => h.2 (hslash ▸ hbyte)) heq
  · exact h

/-- Joined segments can be taken apart. -/
theorem intercalate_injective (hleft : ∀ piece ∈ left, piece ≠ [] ∧ 92 ∉ piece)
    (hright : ∀ piece ∈ right, piece ≠ [] ∧ 92 ∉ piece)
    (h : ([92] : PhpString).intercalate left = [92].intercalate right) : left = right := by
  have hempty {pieces : List PhpString} (hpieces : ∀ piece ∈ pieces, piece ≠ [] ∧ 92 ∉ piece)
      (hnil : ([92] : PhpString).intercalate pieces = []) : pieces = [] := by
    by_contra hne
    have hsplit := splitOn_intercalate (92 : UInt8) (fun piece hpiece => (hpieces piece hpiece).2) hne
    rw [hnil] at hsplit
    exact (hpieces [] (hsplit ▸ mem_singleton_self _)).1 rfl
  by_cases hl : left = []
  · subst hl
    exact (hempty hright h.symm).symm
  by_cases hr : right = []
  · subst hr
    exact hempty hleft h
  · rw [← splitOn_intercalate (92 : UInt8) (fun piece hpiece => (hleft piece hpiece).2) hl, h,
      splitOn_intercalate (92 : UInt8) (fun piece hpiece => (hright piece hpiece).2) hr]

section
variable {left right : FullyQualifiedName} (hleft : left.Segmented) (hright : right.Segmented)
include hleft hright

theorem canonical_eq_iff (kind : NameKind) : left.canonical kind = right.canonical kind ↔
      left.parts.map (NamePart.canonical kind) = right.parts.map (NamePart.canonical kind) := by
  have hpieces {name : FullyQualifiedName} (h : name.Segmented) :
      ∀ piece ∈ name.parts.map (NamePart.canonical kind), piece ≠ [] ∧ 92 ∉ piece := by
    intro piece hpiece
    obtain ⟨part, hpart, rfl⟩ := mem_map.mp hpiece
    exact (h part hpart).canonical kind
  exact ⟨intercalate_injective (hpieces hleft) (hpieces hright), congrArg _⟩

/-- Constants whose namespaces are spelled differently have different canonical forms. -/
theorem canonical_identity_iff (context : ResolveContext) :
    (left.canonical context.nameKind = right.canonical context.nameKind ↔
        phpIdentity context.nameKind left = phpIdentity context.nameKind right) ↔
      (context = .constantFetch → phpIdentity .constant left = phpIdentity .constant right →
        left.parts.dropLast = right.parts.dropLast) := by
  rw [canonical_eq_iff hleft hright]
  by_cases hcontext : context = .constantFetch
  · subst hcontext
    have hlast (parts : List NamePart) : parts = parts.dropLast ++ parts.getLast?.toList := by
      cases hparts : parts.getLast? with
      | none => rw [getLast?_eq_none_iff.mp hparts]; rfl
      | some last => exact (dropLast_append_getLast? last hparts).symm
    have hparts : left.parts.map (NamePart.canonical .constant) = right.parts.map (NamePart.canonical .constant) ↔
        left.parts = right.parts :=
      ⟨fun h => map_injective_iff.mpr (fun _ _ => NamePart.eq_of_original) h, congrArg _⟩
    rw [ResolveContext.nameKind, hparts]
    simp only [forall_const]
    constructor
    · intro h hidentity
      rw [h.mpr hidentity]
    intro h
    refine ⟨fun heq => by rw [phpIdentity, heq, phpIdentity], fun hidentity => ?_⟩
    have hdrop := h hidentity
    rw [phpIdentity, phpIdentity, if_pos rfl, if_pos rfl, hdrop] at hidentity
    have hlasts := append_cancel_left hidentity
    rw [hlast left.parts, hlast right.parts, hdrop]
    congr 1
    cases hl : left.parts.getLast? with
    | none =>
      cases hr : right.parts.getLast? with
      | none => rfl
      | some last =>
        rw [hl, hr] at hlasts
        cases hlasts
    | some last =>
      cases hr : right.parts.getLast? with
      | none =>
        rw [hl, hr] at hlasts
        cases hlasts
      | some last' =>
        rw [hl, hr] at hlasts
        rw [NamePart.eq_of_original (singleton_inj.mp hlasts)]
  · refine iff_of_true ?_ fun h => absurd h hcontext
    have hinsensitive : context.nameKind.isCaseInsensitive = true ∧ context.nameKind ≠ .constant := by
      cases context <;> first | exact absurd rfl hcontext | exact ⟨rfl, nofun⟩
    rw [phpIdentity, phpIdentity, if_neg hinsensitive.2, if_neg hinsensitive.2]
    have hcanonical : NamePart.canonical context.nameKind = NamePart.asciiLowercase := by
      funext part
      rw [NamePart.canonical, if_pos hinsensitive.1]
    rw [hcanonical]

end

/-- `use Vendor\Package;` -/
def packageImport : ImportEntry :=
  .new .classLike (.parse (bytesOf "Vendor\\Package")) (bytesOf "Package") false ⟨0, 14⟩

end Phrust
