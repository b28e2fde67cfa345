import AdacHybridMsp430.AbortingRuns
import AdacHybridMsp430.BlankSeparatedWords
import AdacHybridMsp430.ListReplacement
import AdacHybridMsp430.OrderedTables
import AdacHybridMsp430.TextBuffers
import AdacHybridMsp430.PathNames
import AdacHybridMsp430.ShellWords
import AdacHybridMsp430.DriverCommandLine
import AdacHybridMsp430.DriverArguments
import AdacHybridMsp430.AssemblyPostprocessing
import AdacHybridMsp430.DriverPipeline
import AdacHybridMsp430.DriverPlan
import AdacHybridMsp430.DriverOptionForwarding
import AdacHybridMsp430.DriverFailureContainment
import AdacHybridMsp430.DriverShellDelivery
import AdacHybridMsp430.DriverIntermediateFiles
import AdacHybridMsp430.DriverCleanup
import AdacHybridMsp430.DriverToolRuns
import AdacHybridMsp430.AssemblyText
import AdacHybridMsp430.AssemblyElaboration
import AdacHybridMsp430.AssemblyRenaming
import AdacHybridMsp430.ExchangeFiles
import AdacHybridMsp430.ObjectMapping
import AdacHybridMsp430.MarkRelease
import AdacHybridMsp430.ByteMemory
import AdacHybridMsp430.BitMoves
import AdacHybridMsp430.BinaryFloats
import AdacHybridMsp430.DecimalNumerals
import AdacHybridMsp430.RuntimeSystem
import AdacHybridMsp430.RuntimeExceptions
import AdacHybridMsp430.SecondaryStack
import AdacHybridMsp430.BitOps
import AdacHybridMsp430.BitEquality
import AdacHybridMsp430.BitfieldUtils
import AdacHybridMsp430.BitfieldCopies
import AdacHybridMsp430.Bitfields
import AdacHybridMsp430.IntegerImages
import AdacHybridMsp430.IntegerOutput
import AdacHybridMsp430.IntegerPowers
import AdacHybridMsp430.DecimalImages
import AdacHybridMsp430.DecimalRounding
import AdacHybridMsp430.DecimalLayouts
import AdacHybridMsp430.DecimalOutput
import AdacHybridMsp430.DecimalCounters
import AdacHybridMsp430.Exponentiation
import AdacHybridMsp430.LongFloatPowers
import AdacHybridMsp430.CheckedMultiplications
import AdacHybridMsp430.FloatComparisons
import AdacHybridMsp430.StorageElements
import AdacHybridMsp430.BasedImages
import AdacHybridMsp430.BasedImageOutput
import AdacHybridMsp430.PointerCopies
import AdacHybridMsp430.BinaryFloatSpacing
import AdacHybridMsp430.FloatAttributes
import AdacHybridMsp430.BoundedLoops
import AdacHybridMsp430.FloatDecompositions
import AdacHybridMsp430.FloatNeighbours
import AdacHybridMsp430.FloatRemainders
import AdacHybridMsp430.BinaryFloatIntegers
import AdacHybridMsp430.FloatRoundings
import AdacHybridMsp430.FloatLeadingParts
import AdacHybridMsp430.FloatAdjacents
import AdacHybridMsp430.FloatValidity
import AdacHybridMsp430.WrappingPowers
import AdacHybridMsp430.FootprintRuns
import AdacHybridMsp430.DriverFootprints
import AdacHybridMsp430.DriverReproducibility
import AdacHybridMsp430.DriverLog
import AdacHybridMsp430.RepeatedMapping
import AdacHybridMsp430.PointerScans
import AdacHybridMsp430.NumericImages
import AdacHybridMsp430.CharacterImages
import AdacHybridMsp430.EnumerationImages
import AdacHybridMsp430.TextOutput
import AdacHybridMsp430.BlockAllocators
import AdacHybridMsp430.HeapAllocations
import AdacHybridMsp430.TypeTags
import AdacHybridMsp430.BitPrograms
import AdacHybridMsp430.BitfieldRuns
import AdacHybridMsp430.ScaledImages
import AdacHybridMsp430.BinaryFloatSums
import AdacHybridMsp430.BinaryFloatScaling
import AdacHybridMsp430.ComplexTypes
import AdacHybridMsp430.ComplexOperators
import AdacHybridMsp430.GaussianPowers
import AdacHybridMsp430.ImaginaryPowers
import AdacHybridMsp430.ElementaryFunctions
import AdacHybridMsp430.ArctanhTerms
import AdacHybridMsp430.CycleReductions
