import ZeCo.SequenceParallel
import ZeCo.GlaChunkAdjoint
import ZeCo.AllscanAdjoint
import ZeCo.NetworkProgress
import ZeCo.TorchAutograd
import ZeCo.TorchPrograms
import ZeCo.AllscanDispatch
import ZeCo.AllscanBackwardEpochs
import ZeCo.AllscanBackwardKernel
import ZeCo.FusedForward
import ZeCo.FusedBackward
import ZeCo.TorchDistributed
import ZeCo.SimplerForward
import ZeCo.SimplerBackward
import ZeCo.SimplerMultihead
import ZeCo.WorkerLeaks
import ZeCo.PyptoFailures
import ZeCo.DeviceRuns
import ZeCo.AllscanBuffers
import ZeCo.AllscanEpochs
import ZeCo.PyptoAllscanBackward
import ZeCo.PyptoZecoRuns
import ZeCo.FusedForwardKernels
import ZeCo.FusedForwardPlan
import ZeCo.FusedRecompute
import ZeCo.FusedGradO
import ZeCo.FusedGradH
import ZeCo.FusedBackwardPlan
import ZeCo.ShapeCeiling
import ZeCo.PlanTiling
import ZeCo.MultiHead
import ZeCo.DeviceTexts
import ZeCo.LatencyStats
import ZeCo.SimplerDevices
import ZeCo.BenchSweep
import ZeCo.PipeOrder
import ZeCo.Regions
import ZeCo.DeviceTiles
import ZeCo.AllscanBackwardTiles
