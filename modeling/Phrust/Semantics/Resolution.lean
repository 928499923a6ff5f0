import Phrust.Semantics.Imports

/-!
# Name resolution

`NameResolver` resolves the names of one namespace block over the imports that have been collected.
-/

namespace Phrust

inductive ResolveContext where
  | classLike
  | functionCall
  | constantFetch
  | namespaceName
  | attributeClass
  | typeName
  deriving DecidableEq, Repr

namespace ResolveContext

def importKind : ResolveContext → Option ImportKind
  | .classLike | .attributeClass | .typeName => some .classLike
  | .functionCall => some .function
  | .constantFetch => some .const
  | .namespaceName => none

def nameKind : ResolveContext → NameKind
  | .classLike | .attributeClass | .typeName => .classLike
  | .functionCall => .function
  | .constantFetch => .constant
  | .namespaceName => .namespaceName

end ResolveContext

inductive ResolvedName where
  | fullyQualified (name : FullyQualifiedName)
  | maybeRuntimeFallback (namespaced fallback : FullyQualifiedName)
  | dynamic
  | unresolved
  deriving DecidableEq

/-- The current namespace is given by its text. -/
structure NameResolver where
  currentNamespace : Option PhpString
  imports : ImportTable

namespace NameResolver
variable (resolver : NameResolver)

def namespaceParts : List NamePart :=
  (resolver.currentNamespace.map fun text => (QualifiedName.parse text).parts).getD []

def withCurrentNamespace (parts : List NamePart) : FullyQualifiedName := ⟨resolver.namespaceParts ++ parts⟩

def resolve (name : QualifiedName) (context : ResolveContext) : ResolvedName :=
  match name.parts with
  | [] => .dynamic
  | first :: rest =>
    if name.leadingSlash then .fullyQualified ⟨first :: rest⟩
    else if name.namespaceRelative then .fullyQualified (resolver.withCurrentNamespace (first :: rest))
    else
      match context.importKind.bind fun kind => resolver.imports.lookup kind first.original with
      | some entry => .fullyQualified ⟨entry.name.parts ++ rest⟩
      | none =>
        match context with
        | .functionCall | .constantFetch =>
          if rest = [] ∧ resolver.currentNamespace.isSome then
            .maybeRuntimeFallback (resolver.withCurrentNamespace (first :: rest)) ⟨first :: rest⟩
          else .fullyQualified ⟨first :: rest⟩
        | .classLike | .attributeClass | .typeName | .namespaceName =>
          .fullyQualified (resolver.withCurrentNamespace (first :: rest))

end NameResolver
end Phrust
