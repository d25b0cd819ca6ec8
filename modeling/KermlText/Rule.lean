/-!
The rules of the grammar, one per kind of node that a tree can hold or that a table can mention.
`error` has no alternatives: it labels the nodes in which recovery keeps the tokens that it skipped.
-/

namespace KermlText

inductive Rule where
  -- namespaces and members
  | rootNamespace | namespaceMember | packageMember | importMember | aliasMember | classifierMember
  | featureMember | relationshipMember | annotationMember | returnParameterMember | packageElement
  | packageDecl | libraryPackage | namespaceDecl | namespaceBody | importElement | importDecl
  | elementFilter | filterCondition | aliasDecl
  -- names
  | identification | qualifiedName | featureChain | multiplicity | multiplicityBound
  -- classifiers
  | classifierElement | classifierDeclaration | typeDecl | classifierDecl | classDecl
  | dataTypeDecl | structureDecl | associationDecl | associationStructureDecl | behaviorDecl
  | functionDecl | predicateDecl | interactionDecl | metaclassDecl | classifierRelationship
  | specializationPart | conjugationPart | disjoiningPart | unioningPart | intersectingPart
  | differencingPart
  -- features
  | featureElement | featurePrefix | featureTail | feature | step | expressionDeclaration
  | booleanExpression | invariant | featureValue | featureRelationship | featureTyping | subsetting
  | redefinition | referenceSubsetting | crossSubsetting | featureChaining | featureInverting
  | typeFeaturing
  -- connectors
  | connector | connectorEnds | connectorEnd | bindingConnector | succession | itemFlow
  | successionItemFlow
  -- function bodies
  | functionBody | functionBodyMember
  -- standalone relationships
  | relationshipElement | specializationPrefix | subclassificationDeclaration
  | conjugationDeclaration | disjoiningDeclaration | featureTypingDeclaration
  | subsettingDeclaration | redefinitionDeclaration | dependency
  -- annotations
  | annotationElement | aboutClause | localeClause | comment | documentation
  | textualRepresentation | metadataFeature | metadataTyping
  -- expressions
  | ownedExpression | operatorExpression | classificationExpression | conditionalExpression
  | unaryExpression | selfClassificationExpression | primaryExpression | featureChainExpression
  | indexExpression | bracketExpression | arrowInvocationExpression | invocationExpression
  | nullExpression | literalExpression | sequenceExpression | bodyExpression | bodyParameter
  | newExpression | featureReferenceExpression | argumentList | arguments | argument
  | namedArgument | positionalArgument
  -- skipped tokens collected by error recovery
  | error
  deriving DecidableEq

namespace Rule

/-- All rules in declaration order. -/
def all : List Rule :=
  [.rootNamespace, .namespaceMember, .packageMember, .importMember, .aliasMember,
   .classifierMember, .featureMember, .relationshipMember, .annotationMember,
   .returnParameterMember, .packageElement, .packageDecl, .libraryPackage, .namespaceDecl,
   .namespaceBody, .importElement, .importDecl, .elementFilter, .filterCondition, .aliasDecl,
   .identification, .qualifiedName, .featureChain, .multiplicity, .multiplicityBound,
   .classifierElement, .classifierDeclaration, .typeDecl, .classifierDecl, .classDecl,
   .dataTypeDecl, .structureDecl, .associationDecl, .associationStructureDecl, .behaviorDecl,
   .functionDecl, .predicateDecl, .interactionDecl, .metaclassDecl, .classifierRelationship,
   .specializationPart, .conjugationPart, .disjoiningPart, .unioningPart, .intersectingPart,
   .differencingPart, .featureElement, .featurePrefix, .featureTail, .feature, .step,
   .expressionDeclaration, .booleanExpression, .invariant, .featureValue, .featureRelationship,
   .featureTyping, .subsetting, .redefinition, .referenceSubsetting, .crossSubsetting,
   .featureChaining, .featureInverting, .typeFeaturing, .connector, .connectorEnds, .connectorEnd,
   .bindingConnector, .succession, .itemFlow, .successionItemFlow, .functionBody,
   .functionBodyMember, .relationshipElement, .specializationPrefix, .subclassificationDeclaration,
   .conjugationDeclaration, .disjoiningDeclaration, .featureTypingDeclaration,
   .subsettingDeclaration, .redefinitionDeclaration, .dependency, .annotationElement, .aboutClause,
   .localeClause, .comment, .documentation, .textualRepresentation, .metadataFeature,
   .metadataTyping, .ownedExpression, .operatorExpression, .classificationExpression,
   .conditionalExpression, .unaryExpression, .selfClassificationExpression, .primaryExpression,
   .featureChainExpression, .indexExpression, .bracketExpression, .arrowInvocationExpression,
   .invocationExpression, .nullExpression, .literalExpression, .sequenceExpression,
   .bodyExpression, .bodyParameter, .newExpression, .featureReferenceExpression, .argumentList,
   .arguments, .argument, .namedArgument, .positionalArgument, .error]

def count : Nat := 115

def index (r : Rule) : Nat := r.ctorIdx

theorem index_lt (r : Rule) : r.index < count := by
  cases r <;> decide

theorem length_all : all.length = count := by decide +kernel

theorem all_getElem?_index (r : Rule) : all[r.index]? = some r := by
  cases r <;> rfl

theorem mem_all (r : Rule) : r ∈ all :=
  List.mem_of_getElem? (all_getElem?_index r)

theorem nodup_all : all.Nodup := by decide +kernel

theorem index_inj {a b : Rule} (h : a.index = b.index) : a = b := by
  have := all_getElem?_index a
  rw [h, all_getElem?_index b] at this
  exact (Option.some.inj this).symm

def name : Rule → String
  | .rootNamespace => "RootNamespace" | .namespaceMember => "NamespaceMember"
  | .packageMember => "PackageMember" | .importMember => "ImportMember"
  | .aliasMember => "AliasMember" | .classifierMember => "ClassifierMember"
  | .featureMember => "FeatureMember" | .relationshipMember => "RelationshipMember"
  | .annotationMember => "AnnotationMember" | .returnParameterMember => "ReturnParameterMember"
  | .packageElement => "PackageElement" | .packageDecl => "Package"
  | .libraryPackage => "LibraryPackage" | .namespaceDecl => "Namespace"
  | .namespaceBody => "NamespaceBody" | .importElement => "ImportElement" | .importDecl => "Import"
  | .elementFilter => "ElementFilter" | .filterCondition => "FilterCondition"
  | .aliasDecl => "Alias" | .identification => "Identification" | .qualifiedName => "QualifiedName"
  | .featureChain => "FeatureChain" | .multiplicity => "Multiplicity"
  | .multiplicityBound => "MultiplicityBound" | .classifierElement => "ClassifierElement"
  | .classifierDeclaration => "ClassifierDeclaration" | .typeDecl => "Type"
  | .classifierDecl => "Classifier" | .classDecl => "Class" | .dataTypeDecl => "DataType"
  | .structureDecl => "Structure" | .associationDecl => "Association"
  | .associationStructureDecl => "AssociationStructure" | .behaviorDecl => "Behavior"
  | .functionDecl => "Function" | .predicateDecl => "Predicate" | .interactionDecl => "Interaction"
  | .metaclassDecl => "Metaclass" | .classifierRelationship => "ClassifierRelationship"
  | .specializationPart => "SpecializationPart" | .conjugationPart => "ConjugationPart"
  | .disjoiningPart => "DisjoiningPart" | .unioningPart => "UnioningPart"
  | .intersectingPart => "IntersectingPart" | .differencingPart => "DifferencingPart"
  | .featureElement => "FeatureElement" | .featurePrefix => "FeaturePrefix"
  | .featureTail => "FeatureTail" | .feature => "Feature" | .step => "Step"
  | .expressionDeclaration => "ExpressionDeclaration" | .booleanExpression => "BooleanExpression"
  | .invariant => "Invariant" | .featureValue => "FeatureValue"
  | .featureRelationship => "FeatureRelationship" | .featureTyping => "FeatureTyping"
  | .subsetting => "Subsetting" | .redefinition => "Redefinition"
  | .referenceSubsetting => "ReferenceSubsetting" | .crossSubsetting => "CrossSubsetting"
  | .featureChaining => "FeatureChaining" | .featureInverting => "FeatureInverting"
  | .typeFeaturing => "TypeFeaturing" | .connector => "Connector"
  | .connectorEnds => "ConnectorEnds" | .connectorEnd => "ConnectorEnd"
  | .bindingConnector => "BindingConnector" | .succession => "Succession" | .itemFlow => "ItemFlow"
  | .successionItemFlow => "SuccessionItemFlow" | .functionBody => "FunctionBody"
  | .functionBodyMember => "FunctionBodyMember" | .relationshipElement => "RelationshipElement"
  | .specializationPrefix => "SpecializationPrefix"
  | .subclassificationDeclaration => "SubclassificationDeclaration"
  | .conjugationDeclaration => "ConjugationDeclaration"
  | .disjoiningDeclaration => "DisjoiningDeclaration"
  | .featureTypingDeclaration => "FeatureTypingDeclaration"
  | .subsettingDeclaration => "SubsettingDeclaration"
  | .redefinitionDeclaration => "RedefinitionDeclaration" | .dependency => "Dependency"
  | .annotationElement => "AnnotationElement" | .aboutClause => "AboutClause"
  | .localeClause => "LocaleClause" | .comment => "Comment" | .documentation => "Documentation"
  | .textualRepresentation => "TextualRepresentation" | .metadataFeature => "MetadataFeature"
  | .metadataTyping => "MetadataTyping" | .ownedExpression => "OwnedExpression"
  | .operatorExpression => "OperatorExpression"
  | .classificationExpression => "ClassificationExpression"
  | .conditionalExpression => "ConditionalExpression" | .unaryExpression => "UnaryExpression"
  | .selfClassificationExpression => "SelfClassificationExpression"
  | .primaryExpression => "PrimaryExpression" | .featureChainExpression => "FeatureChainExpression"
  | .indexExpression => "IndexExpression" | .bracketExpression => "BracketExpression"
  | .arrowInvocationExpression => "ArrowInvocationExpression"
  | .invocationExpression => "InvocationExpression" | .nullExpression => "NullExpression"
  | .literalExpression => "LiteralExpression" | .sequenceExpression => "SequenceExpression"
  | .bodyExpression => "BodyExpression" | .bodyParameter => "BodyParameter"
  | .newExpression => "NewExpression" | .featureReferenceExpression => "FeatureReferenceExpression"
  | .argumentList => "ArgumentList" | .arguments => "Arguments" | .argument => "Argument"
  | .namedArgument => "NamedArgument" | .positionalArgument => "PositionalArgument"
  | .error => "Error"

def ofName? (s : String) : Option Rule :=
  all.find? (fun r => r.name == s)

end Rule

end KermlText
