import ConfluentKafka.Lts
import ConfluentKafka.Heap
import ConfluentKafka.PartitionOwnership
import ConfluentKafka.LinkedList
import ConfluentKafka.JsMap
import ConfluentKafka.Grouping
import ConfluentKafka.Cache
import ConfluentKafka.Leases
import ConfluentKafka.CacheSound
import ConfluentKafka.CacheWf
import ConfluentKafka.CacheOrder
import ConfluentKafka.Lock
import ConfluentKafka.Run
import ConfluentKafka.RunFloor
import ConfluentKafka.RunWake
import ConfluentKafka.RunInv
import ConfluentKafka.RunOps
import ConfluentKafka.Flow
import ConfluentKafka.RunOffsets
import ConfluentKafka.RunPositions
import ConfluentKafka.RunHeld
import ConfluentKafka.Connect
import ConfluentKafka.ConnectInv
import ConfluentKafka.Attempts
import ConfluentKafka.Disconnect
import ConfluentKafka.Schema
import ConfluentKafka.Rules
import ConfluentKafka.RuleFailure
import ConfluentKafka.Chain
import ConfluentKafka.RuleSymmetry
import ConfluentKafka.Migrations
import ConfluentKafka.Bytes
import ConfluentKafka.VarInt
import ConfluentKafka.SchemaId
import ConfluentKafka.Framing
import ConfluentKafka.Prog
import ConfluentKafka.Utf8
import ConfluentKafka.Base64
import ConfluentKafka.DekRegistry
import ConfluentKafka.Encryption
import ConfluentKafka.DekInv
import ConfluentKafka.DekCalls
import ConfluentKafka.EncryptSpec
import ConfluentKafka.EncryptTransform
import ConfluentKafka.DekRotation
import ConfluentKafka.EncryptRoundTrip
import ConfluentKafka.UriComponent
import ConfluentKafka.RegistryClient
import ConfluentKafka.CacheTransparency
import ConfluentKafka.Invalidation
import ConfluentKafka.DeletedVersions
import ConfluentKafka.Layout
import ConfluentKafka.Variant
import ConfluentKafka.VariantJson
import ConfluentKafka.VariantSafe
import ConfluentKafka.VariantJsonTexts
import ConfluentKafka.VariantReading
import ConfluentKafka.VariantBuilder
import ConfluentKafka.VariantTree
import ConfluentKafka.VariantEncode
import ConfluentKafka.VariantDecode
import ConfluentKafka.VariantRoundTrip
import ConfluentKafka.JsObject
import ConfluentKafka.Headers
import ConfluentKafka.Send
import ConfluentKafka.FetchOffsets
import ConfluentKafka.Doubles
import ConfluentKafka.Offsets
import ConfluentKafka.Commit
import ConfluentKafka.EachBatch
import ConfluentKafka.EState
import ConfluentKafka.VariantSize
import ConfluentKafka.JsValue
import ConfluentKafka.FieldWalk
import ConfluentKafka.WalkRules
import ConfluentKafka.JsonTransform
import ConfluentKafka.JsonPairs
import ConfluentKafka.JsonRoundTrip
import ConfluentKafka.JsonIdentity
import ConfluentKafka.ProtoTransform
import ConfluentKafka.ProtoIdentity
import ConfluentKafka.AvroTransform
import ConfluentKafka.AvroLeaves
import ConfluentKafka.AvroCalls
import ConfluentKafka.AvroTagged
import ConfluentKafka.IdentityWalks
import ConfluentKafka.AvroTags
import ConfluentKafka.AvroText
import ConfluentKafka.AvroResolution
import ConfluentKafka.CelScalars
import ConfluentKafka.CelAvro
import ConfluentKafka.CelDatum
import ConfluentKafka.Fuel
import ConfluentKafka.CelBranches
import ConfluentKafka.ConsumeNum
import ConfluentKafka.ConsumeLoop
import ConfluentKafka.ConsumerStream
import ConfluentKafka.ProducerStream
import ConfluentKafka.DeliveryReports
import ConfluentKafka.MessageBytes
import ConfluentKafka.NodeProduce
import ConfluentKafka.ClientConnect
import ConfluentKafka.ClientDispatchers
import ConfluentKafka.HighLevelProducer
import ConfluentKafka.PollingRef
import ConfluentKafka.CelWriteBack
import ConfluentKafka.CelUnions
import ConfluentKafka.CelNames
import ConfluentKafka.VariantTimes
import ConfluentKafka.CelArithmetic
import ConfluentKafka.VariantPositions
import ConfluentKafka.Bisect
import ConfluentKafka.VariantSearch
import ConfluentKafka.Utf16
import ConfluentKafka.JsBuilder
import ConfluentKafka.JsEncode
import ConfluentKafka.VariantPlaces
import ConfluentKafka.VariantLookups
import ConfluentKafka.VariantTexts
import ConfluentKafka.VariantRecovery
import ConfluentKafka.JsonTree
import ConfluentKafka.JsonText
import ConfluentKafka.Binary64
import ConfluentKafka.NonFinite
import ConfluentKafka.NonFiniteLex
import ConfluentKafka.NonFiniteRewrite
import ConfluentKafka.NonFiniteParse
import ConfluentKafka.NonFiniteLoop
import ConfluentKafka.VariantFromJson
import ConfluentKafka.VariantKeyOrder
import ConfluentKafka.DecimalRounding
import ConfluentKafka.DecimalValue
import ConfluentKafka.CelEncode
import ConfluentKafka.CelDivision
import ConfluentKafka.CelRemainder
import ConfluentKafka.CelRounding
import ConfluentKafka.CelEpochs
import ConfluentKafka.FieldRules
import ConfluentKafka.CelExecutor
import ConfluentKafka.DigitText
import ConfluentKafka.CelText
import ConfluentKafka.NumberLiterals
import ConfluentKafka.CelLiterals
import ConfluentKafka.CelStrings
import ConfluentKafka.CelEquality
import ConfluentKafka.References
import ConfluentKafka.DoubleOps
import ConfluentKafka.VarIntBytes
import ConfluentKafka.GreedyMatch
import ConfluentKafka.RegExp
import ConfluentKafka.SchemaIdBytes
import ConfluentKafka.MessageIndexes
import ConfluentKafka.WildcardMatcher
import ConfluentKafka.FailFast
import ConfluentKafka.ValidationRules
import ConfluentKafka.AvroValidation
import ConfluentKafka.JsonValidation
import ConfluentKafka.ProtoValidation
import ConfluentKafka.InlineValidation
import ConfluentKafka.JsonDescents
import ConfluentKafka.JsonMirrored
import ConfluentKafka.VisitedSearch
import ConfluentKafka.SchemaView
import ConfluentKafka.DottedNames
import ConfluentKafka.TypeNames
import ConfluentKafka.FailingFold
import ConfluentKafka.ProtobufResult
import ConfluentKafka.ProtobufOrder
import ConfluentKafka.TwosComplement
import ConfluentKafka.VarIntDoubles
import ConfluentKafka.LinkedListOps
import ConfluentKafka.ListRefinement
import ConfluentKafka.JsMapLoops
import ConfluentKafka.MockRegistry
import ConfluentKafka.MockVersions
import ConfluentKafka.VariantPath
import ConfluentKafka.VariantWalk
import ConfluentKafka.RuleRecovery
import ConfluentKafka.AvroSerde
import ConfluentKafka.MockReads
import ConfluentKafka.AvroFrames
import ConfluentKafka.AvroRuns
import ConfluentKafka.AvroEvolution
import ConfluentKafka.Hkdf
