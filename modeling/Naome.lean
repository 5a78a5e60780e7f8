import Naome.MachineIntegers
import Naome.Outcome
import Naome.FirstOccurrence
import Naome.ByteCursor
import Naome.LocallyNameless
import Naome.LocallyNamelessSemantics
import Naome.Formula
import Naome.Construction
import Naome.Zfc
import Naome.SchemaMeaning
import Naome.VariableNumbering
import Naome.NodeCodec
import Naome.NodeCodecSpec
import Naome.FormulaCodec
import Naome.DefinedFormula
import Naome.DefinitionExpansion
import Naome.DefinitionExpansionSpec
import Naome.Definition
import Naome.DefinitionMeaning
import Naome.ProofFormula
import Naome.ProofStep
import Naome.ProofCodec
import Naome.ProofCodecSpec
import Naome.ProofDecode
import Naome.Artifact
import Naome.StepRenaming
import Naome.NormalForm
import Naome.Derivation
import Naome.NormalFormSpec
import Naome.Context
import Naome.Checker
import Naome.CheckerSoundness
import Naome.RuleRenaming
import Naome.CheckerSpec
import Naome.CheckDiagnostics
import Naome.EarlyRelease
import Naome.Reconstruction
import Naome.NormalFormChecking
import Naome.KnowledgeIndex
import Naome.ArtifactState
import Naome.ContextTransport
import Naome.ArtifactHistory
import Naome.ReferenceTransparency
import Naome.PatriciaTree
import Naome.SetFingerprint
import Naome.PersistentMap
import Naome.ContextStorage
import Naome.DiskMap
import Naome.DiskMapSpec
import Naome.DiskMapAccess
import Naome.DiskMapTraversal
import Naome.AuthenticatedMap
import Naome.FingerprintAgreement
import Naome.ProgramCommand
import Naome.ProgramStream
import Naome.ProgramTransfer
import Naome.ProgramRules
import Naome.ProgramSoundness
import Naome.FormulaGraph
import Naome.NodeStore
import Naome.NodeInterning
import Naome.GraphTransform
import Naome.GraphTransformSpec
import Naome.Materialization
import Naome.BoundedFormula
import Naome.ConclusionIdentity
import Naome.MapContents
import Naome.DiskArtifactState
import Naome.DiskArtifactAccess
import Naome.DiskRegistration
import Naome.ContextMirror
import Naome.ContextAgreement
import Naome.ContextOrder
import Naome.ContextReplicas
import Naome.ProgramStaging
import Naome.ProgramRelay
import Naome.CatalogObject
import Naome.Catalog
import Naome.CatalogRows
import Naome.CatalogValidation
import Naome.CatalogHistory
import Naome.Effect
import Naome.TrackedMap
import Naome.ResearchJob
import Naome.ResearchJournal
import Naome.ResearchDisk
import Naome.ResearchService
import Naome.ResearchAllowance
import Naome.ProviderFrame
import Naome.ProviderWorker
import Naome.ProviderAttempt
import Naome.ProviderSystem
import Naome.ProviderStream
import Naome.ProviderDelivery
import Naome.UncertainEffects
import Naome.ProviderProtocol
import Naome.ProviderSession
import Naome.CleanupReceipt
import Naome.MapHandles
import Naome.NormalFormOrigins
import Naome.NormalizedEncoding
import Naome.ReadContext
import Naome.ReadTransparency
import Naome.ContextSources
import Naome.DefinitionStream
import Naome.DefinitionStreamSpec
import Naome.FunctionObligation
import Naome.EffectBudget
import Naome.QuestionWork
import Naome.DeductionPlan
import Naome.CertificateErrors
import Naome.CheckingWork
import Naome.FormulaLength
import Naome.PlanAccounts
import Naome.CertificateReservation
import Naome.DerivedFormulas
import Naome.RefusedChecks
import Naome.PlanDerivation
import Naome.QuestionTarget
import Naome.DependencyScheduler
import Naome.DependencyOrder
import Naome.FormulaDifference
import Naome.GraphDifference
import Naome.ProgramEngine
import Naome.FinalizationReads
import Naome.ProgramAcceptance
import Naome.ProofBacklog
import Naome.BacklogReadiness
import Naome.DeferredSearch
import Naome.QuestionFeatures
import Naome.TrainingSelection
import Naome.TrainingClosures
import Naome.SourceTerms
import Naome.TermLowering
import Naome.AtomLowering
import Naome.FormulaParser
import Naome.SourceGrammar
import Naome.TermAccounts
import Naome.FormulaAccounts
import Naome.NodeLimits
import Naome.SourceProofs
import Naome.CertificateAccounts
import Naome.BinderInverses
import Naome.FormulaOpening
import Naome.ImplicationRanges
import Naome.GraphNodeCodec
import Naome.ResourceBudget
import Naome.Governor
import Naome.GovernorRanges
import Naome.GovernorPause
import Naome.ResearchSizes
import Naome.ResearchCapacity
import Naome.ResearchRoom
import Naome.ResearchFailures
import Naome.ResearchRoomSteps
import Naome.ResearchSubmission
import Naome.ResearchReservations
import Naome.ElementaryPlan
import Naome.ElementaryRecognition
import Naome.ElementaryProofs
import Naome.QuestionSource
import Naome.QuestionPrinting
import Naome.QuestionRoundTrip
import Naome.QuestionAccounts
import Naome.SourceStatement
import Naome.ParserAgreement
import Naome.StatementAgreement
